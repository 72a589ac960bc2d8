import Bitzer.Conf.Quotes
import Bitzer.Conf.RoundTrip

/-!
# Words that become arguments

The words of an `args` option and the arguments of the task. A token of an args
list is a word of one of four patterns, so a word reaches the process as it is
written only where it is, as a whole, such a word; any other word is cut in
pieces.
-/

namespace Bitzer

open Lib Lib.Regex

/-! ## The words of a derivation -/

section
variable {ts : List Token} {w : Str}

theorem Arg.token (h : Arg ts w) : ∃ t ∈ ts, t.innerArg = some w := by
  cases h with
  | plain ht => exact ⟨_, List.mem_singleton.mpr rfl, ht⟩
  | quoted ht => exact ⟨_, by simp, ht⟩

theorem Words.token {ws : List Str} (h : Words ts ws) (hw : w ∈ ws) :
    ∃ t ∈ ts, t.innerArg = some w := by
  induction h with
  | nil => cases hw
  | snoc _ harg ih =>
      rcases List.mem_append.mp hw with hw | hw
      · obtain ⟨t, ht, hval⟩ := ih hw
        exact ⟨t, List.mem_append_left _ ht, hval⟩
      · obtain rfl := List.mem_singleton.mp hw
        obtain ⟨t, ht, hval⟩ := harg.token
        exact ⟨t, List.mem_append_right _ ht, hval⟩

theorem Writs.token {b : List Opt} (h : Writs ts b) (hw : w ∈ b.flatMap Opt.words) :
    ∃ t ∈ ts, t.innerArg = some w := by
  induction h with
  | nil => cases hw
  | @snoc ts us b o _ hwrit ih =>
      rw [List.flatMap_append, List.flatMap_singleton] at hw
      rcases List.mem_append.mp hw with hw | hw
      · obtain ⟨t, ht, hval⟩ := ih hw
        exact ⟨t, List.mem_append_left _ ht, hval⟩
      · cases hwrit with
        | args hwords =>
            obtain ⟨t, ht, hval⟩ := hwords.token hw
            exact ⟨t, by simp [ht], hval⟩
        | _ => cases hw

theorem Derives.token {bs : List (List Opt)} {b : List Opt} (h : Derives ts bs) (hb : b ∈ bs)
    (hw : w ∈ b.flatMap Opt.words) : ∃ t ∈ ts, t.innerArg = some w := by
  induction h with
  | nil => cases hb
  | snoc _ hblock ih =>
      rcases List.mem_append.mp hb with hb | hb
      · obtain ⟨t, ht, hval⟩ := ih hb
        exact ⟨t, List.mem_append_left _ ht, hval⟩
      · obtain rfl := List.mem_singleton.mp hb
        obtain ⟨t, ht, hval⟩ := hblock.token hw
        exact ⟨t, by simp [ht], hval⟩

/-! ## The words of the scanner -/

/-- No rule before that of `ALPHAWORD` returns one. -/
theorem alphaWord_index {pre post : List Rule}
    (h : rules = pre ++ .word Pattern.alphaWord .alphaWord :: post) : 12 ≤ pre.length := by
  have hother : ∀ r ∈ rules.take 12, r.action [] ≠ some (.alphaWord []) := by decide
  by_contra hlt
  refine hother (.word Pattern.alphaWord .alphaWord) ?_ rfl
  rw [h, List.take_append, List.take_of_length_le (by omega)]
  obtain ⟨k, hk⟩ : ∃ k, 12 - pre.length = k + 1 := ⟨11 - pre.length, by omega⟩
  rw [hk, List.take_succ_cons]
  simp

/-- A keyword is no `ALPHAWORD`. -/
theorem Wins.not_keyword {bol : Bool} {v : Str}
    (h : Wins bol (.word Pattern.alphaWord .alphaWord) w v) : isKeyword w = false := by
  obtain ⟨pre, post, hrules, hfirst⟩ := h.first
  cases hk : isKeyword w with
  | false => rfl
  | true =>
      obtain ⟨q, hq, hmem⟩ := isKeyword_iff.mp hk
      have hsplit : rules.take 12 =
          rules.take 2 ++ ((rules.drop 2).take 6 ++ (rules.drop 8).take 4) := rfl
      have hq : q ∈ rules.take 12 := by
        rw [hsplit]
        exact List.mem_append_right _ (List.mem_append_left _ hq)
      have hplain : q ∈ rules.take 18 := List.take_subset_take_left rules (by omega) hq
      have hpre : q ∈ pre := by
        rw [hrules, List.take_append_of_le_length (alphaWord_index hrules)] at hq
        exact List.mem_of_mem_take hq
      refine absurd ?_ (hfirst q hpre ?_)
      · rwa [show w.length + (Rule.word Pattern.alphaWord .alphaWord).trail = w.length from rfl,
          List.take_left]
      · rw [(plain_rules q hplain).1]
        exact fun h => absurd h Bool.false_ne_true

/-- What an args list can get from the scanner. -/
theorem isArg_of_token {s : Str} {t : Token} (h0 : 0 ∉ s) (ht : t ∈ yylex s)
    (hval : t.innerArg = some w) : IsArg w := by
  obtain ⟨x, hx, hxt⟩ := List.mem_filterMap.mp ht
  obtain ⟨l₁, l₂, hlex⟩ := List.append_of_mem hx
  obtain ⟨v, hs, hne, hlexeme, -⟩ := scan_split hlex
  obtain ⟨u, v', x', hsplit, -, rfl, hlexeme', hcase⟩ :=
    lexeme_cases (bolAfter true (l₁.flatMap Lexeme.text)) (List.append_ne_nil_of_left_ne_nil hne v)
  rw [hlexeme] at hlexeme'
  obtain rfl := (Prod.mk.inj (Prod.mk.inj hlexeme').2).2
  have h0x : 0 ∉ x.text := fun h => h0 (by rw [hs]; simp [h])
  rcases hcase with ⟨r, hwin, hr⟩ | ⟨_, -, -, hr⟩
  swap
  · rw [hr] at hxt
    cases hxt
  rw [hr] at hxt
  have hact : r.action x.text = some t := hxt
  have hrule := arg_rule hwin.mem hact (by simp [hval])
  have hmem : x.text ∈ r.pattern.lang :=
    hwin.mem_lang (by rcases hrule with rfl | rfl | rfl | rfl <;> simp [rules])
  have hword : r.action x.text = some t → w = x.text := by
    intro h
    rcases hrule with rfl | rfl | rfl | rfl
    all_goals
      cases h
      rw [← strdup_eq h0x]
      exact (Option.some.inj hval).symm
  obtain rfl := hword hact
  rcases hrule with rfl | rfl | rfl | rfl
  · exact Or.inl hmem
  · exact Or.inr (Or.inl hmem)
  · exact Or.inr (Or.inr (Or.inr ⟨hmem, hwin.not_keyword⟩))
  · exact Or.inr (Or.inr (Or.inl hmem))

end

/-! ## A task with arguments -/

/-- A letter, a digit or one of `-_./=`. -/
def wordByte (c : UInt8) : Bool := isAlpha c || isDigit c || oneOf ['-', '_', '.', '/', '='] c

/-- What is written in `task { name N; path P; args w1 ... wn; }`. -/
structure ArgsConf where
  name : Str
  path : Str
  words : List SpacedWord
  name_valid : name ∈ Pattern.alphaWord.lang ∧ isKeyword name = false
  path_valid : path ∈ Pattern.path.lang
  words_valid : ∀ w ∈ words, w.word ≠ [] ∧ ∀ c ∈ w.word, wordByte c = true

namespace ArgsConf

/-- The text, on one line. -/
def text (c : ArgsConf) : Str :=
  bytes ['t', 'a', 's', 'k'] ++ 32 :: 123 :: 32 ::
    (bytes ['n', 'a', 'm', 'e'] ++ 32 :: (c.name ++ 59 :: 32 ::
      (bytes ['p', 'a', 't', 'h'] ++ 32 :: (c.path ++ 59 :: 32 ::
        (bytes ['a', 'r', 'g', 's'] ++ spacedWords c.words [59, 32, 125])))))

variable {c : ArgsConf}

theorem noNul_name : 0 ∉ c.name := fun h =>
  absurd (uses_of_mem c.name_valid.1 h) (by decide)

theorem noNul_path : 0 ∉ c.path := fun h =>
  absurd (uses_of_mem c.path_valid h) (by decide)

theorem noNul_word {w : SpacedWord} (hw : w ∈ c.words) : 0 ∉ w.word := fun h =>
  absurd ((c.words_valid w hw).2 0 h) (by decide)

theorem noNul_text : 0 ∉ c.text := by
  have hwords : ∀ ws ⊆ c.words, 0 ∉ spacedWords ws [59, 32, 125] := by
    intro ws hws
    induction ws with
    | nil => decide
    | cons w ws ih =>
        have hgap : 0 ∉ w.gap := fun h => absurd (w.gap_blank 0 h) (by decide)
        have hrest := ih fun v hv => hws (List.mem_cons_of_mem w hv)
        have hword := noNul_word (hws List.mem_cons_self)
        simp only [spacedWords, List.foldr_cons, List.mem_append, not_or]
        exact ⟨hgap, hword, hrest⟩
  have hwords := hwords c.words (List.Subset.refl _)
  simp only [text, bytes, List.map_cons, List.map_nil, List.mem_append, List.mem_cons,
    List.not_mem_nil, noNul_name, noNul_path, hwords, or_false, false_or]
  decide

/-- An option with one value. -/
theorem tokensFrom_inline {bol : Bool} {kw v s : Str} {k t : Token} (hk : (kw, k) ∈ keywords)
    (hv : Scans 59 v t) :
    tokensFrom bol (32 :: (kw ++ 32 :: (v ++ 59 :: s))) =
      k :: t :: .semicolon :: tokensFrom false s := by
  have hblank : ∀ c ∈ [(32 : UInt8)], oneOf [' ', '\t'] c = true :=
    List.forall_mem_singleton.mpr (by decide)
  rw [← List.singleton_append, tokensFrom_indent hblank hk rfl, tokensFrom_spaced hv,
    tokensFrom_punct (t := .semicolon) (by simp)]

/-- `task { `. -/
theorem tokensFrom_open (s : Str) :
    tokensFrom true (bytes ['t', 'a', 's', 'k'] ++ 32 :: 123 :: 32 :: s) =
      .tokenTask :: .openBrace :: tokensFrom false (32 :: s) := by
  have hbrace : Scans 32 [123] .openBrace :=
    ⟨⟨123, [], rfl, by decide⟩, fun bol s => tokensFrom_punct (by simp)⟩
  rw [tokensFrom_keyword (t := .tokenTask) (by decide) rfl]
  exact congrArg _ (tokensFrom_spaced hbrace)

/-- The words and the end of the block. -/
theorem tokensFrom_args {ts : List Token}
    (hwords : ∀ bol, ∃ bol', tokensFrom bol (spacedWords c.words [59, 32, 125]) =
      ts ++ tokensFrom bol' [59, 32, 125]) :
    tokensFrom false (32 :: (bytes ['a', 'r', 'g', 's'] ++ spacedWords c.words [59, 32, 125])) =
      .tokenArgs :: ts ++ [.semicolon, .endBrace] := by
  have hblank : ∀ c ∈ [(32 : UInt8)], oneOf [' ', '\t'] c = true :=
    List.forall_mem_singleton.mpr (by decide)
  obtain ⟨b, s, hb, hs⟩ : ∃ b s,
      endsWord b = true ∧ spacedWords c.words [59, 32, 125] = b :: s := by
    cases hwords : c.words with
    | nil => exact ⟨59, [32, 125], rfl, rfl⟩
    | cons w ws =>
        obtain ⟨g, u, hgap, hg⟩ := w.endsWord_gap
        refine ⟨g, u ++ (w.word ++ spacedWords ws [59, 32, 125]), hg, ?_⟩
        rw [← List.cons_append, ← hgap]
        rfl
  obtain ⟨bol', hwords⟩ := hwords false
  obtain ⟨bol'', hlast⟩ : ∃ bol', tokensFrom false ([32] ++ [125]) = tokensFrom bol' [125] :=
    tokensFrom_blanks false hblank (by decide)
  calc tokensFrom false (32 :: (bytes ['a', 'r', 'g', 's'] ++ spacedWords c.words [59, 32, 125]))
      = .tokenArgs :: tokensFrom false (b :: s) := by
        have hkargs : (bytes ['a', 'r', 'g', 's'], Token.tokenArgs) ∈ keywords := by decide
        rw [hs]
        exact tokensFrom_indent hblank hkargs hb
    _ = .tokenArgs :: (ts ++ tokensFrom bol' [59, 32, 125]) := by rw [← hs, hwords]
    _ = .tokenArgs :: (ts ++ [.semicolon, .endBrace]) := by
        have hend : tokensFrom bol'' [125] = [.endBrace] := tokensFrom_punct (by simp)
        rw [tokensFrom_punct (t := .semicolon) (by simp)]
        rw [← hend, ← hlast]
        rfl

/-- The tokens of the text, where each word is a token. -/
theorem tokens (h : ∀ w ∈ c.words, IsArg w.word) :
    ∃ ts, Words ts (c.words.map SpacedWord.word) ∧
      yylex c.text = Token.tokenTask :: Token.openBrace ::
        (([.tokenName, .alphaWord c.name, .semicolon] : List Token) ++
          ([.tokenPath, .path c.path, .semicolon] : List Token) ++
            (Token.tokenArgs :: ts ++ [Token.semicolon])) ++ [Token.endBrace] := by
  obtain ⟨ts, hts, htok⟩ := spacedWords_spec fun w hw => ⟨h w hw, noNul_word hw⟩
  refine ⟨ts, hts, ?_⟩
  have hname : Scans 59 c.name (.alphaWord c.name) :=
    scans_alphaWord c.name_valid.1 c.name_valid.2 noNul_name rfl
  have hkname : (bytes ['n', 'a', 'm', 'e'], Token.tokenName) ∈ keywords := by decide
  have hkpath : (bytes ['p', 'a', 't', 'h'], Token.tokenPath) ∈ keywords := by decide
  show tokensFrom true c.text = _
  rw [text, tokensFrom_open, tokensFrom_inline hkname hname,
    tokensFrom_inline hkpath (scans_path c.path_valid noNul_path),
    tokensFrom_args fun bol => htok bol 59 [32, 125] rfl]
  simp

end ArgsConf

/-- The arguments of the task of an accepted configuration are the path and the
words as they are written if and only if each word is, as a whole, one word of
the scanner. -/
theorem args_unchanged_iff (c : ArgsConf) {st : ParseState}
    (hacc : yyparse .tasks ⟨[], none⟩ (yylex c.text) = .accept st) :
    (∃ task, st.tasksList = [task] ∧
      task.args.Contains (.str c.path :: c.words.map (fun w => .str w.word) ++ [.null])) ↔
      ∀ w ∈ c.words, IsArg w.word := by
  have hslots : c.words.map (fun w => Slot.str w.word) =
      (c.words.map SpacedWord.word).map .str := by
    rw [List.map_map]
    rfl
  constructor
  · rintro ⟨task, htask, hargs⟩ w hw
    obtain ⟨bs, tasks, hbs, -, rfl, hmean⟩ := accept_conf hacc
    rw [List.append_nil] at htask
    obtain rfl : tasks = [task] := htask
    obtain ⟨b, _, hb, -, hrev⟩ := List.forall₂_cons_left_iff.mp hmean
    -- the words of the block are the words of the text
    have hwords : c.words.map SpacedWord.word = b.flatMap Opt.words := by
      have heq := (List.cons.inj (hargs.unique hb.args)).2
      rw [hslots] at heq
      exact List.map_injective_iff.mpr (fun _ _ => Slot.str.inj) (List.append_cancel_right heq)
    have hmem : b ∈ bs := List.mem_reverse.mp (hrev ▸ List.mem_cons_self)
    obtain ⟨t, ht, hval⟩ := hbs.token hmem (hwords ▸ List.mem_map_of_mem hw)
    exact isArg_of_token c.noNul_text ht hval
  · intro h
    obtain ⟨ts, hts, htok⟩ := c.tokens h
    have hwrits : Writs _ _ := .snoc (.snoc (.snoc .nil (.name (.alphaWord c.name)))
      (.path c.path)) (.args hts)
    have hbs : Derives (yylex c.text) [[.name c.name, .path c.path,
        .args (c.words.map SpacedWord.word)]] := by
      rw [htok]
      exact .snoc .nil hwrits
    obtain ⟨-, tasks, rfl, hmean⟩ := accept_means hbs hacc
    obtain ⟨task, _, hb, hnil, rfl⟩ := List.forall₂_cons_right_iff.mp hmean
    cases hnil
    refine ⟨task, rfl, ?_⟩
    have hpath : task.path = some c.path := hb.path
    have hargs := hb.args
    rw [hpath] at hargs
    rw [hslots]
    simpa [Opt.words, Slot.ofStr] using hargs

/-- `task { name s; path /; args w; }`. -/
def oneWord (w : Str) (hne : w ≠ []) (hw : w.all wordByte = true) : ArgsConf where
  name := [115]
  path := [47]
  words := [.single w]
  name_valid := by decide +kernel
  path_valid := by decide +kernel
  words_valid := List.forall_mem_singleton.mpr ⟨hne, List.all_eq_true.mp hw⟩

theorem args_unchanged_iff_number : ∃ st : ParseState,
    (∃ task, st.tasksList = [task] ∧
      task.args.Contains [.str [47], .str [49], .null]) ↔
      ∀ w ∈ [SpacedWord.single [49]], IsArg w.word := by
  have htokens : yylex (oneWord [49] (by simp) (by decide)).text =
      [.tokenTask, .openBrace, .tokenName, .alphaWord [115], .semicolon, .tokenPath, .path [47],
        .semicolon, .tokenArgs, .number [49], .semicolon, .endBrace] := by decide +kernel
  exact ⟨_, args_unchanged_iff (oneWord [49] (by simp) (by decide)) (by rw [htokens]; rfl)⟩

/-- The word `1.5` becomes the arguments `1` and `5`. -/
theorem not_args_unchanged : ¬∀ (c : ArgsConf) st,
    yyparse .tasks ⟨[], none⟩ (yylex c.text) = .accept st →
    ∃ task, st.tasksList = [task] ∧
      task.args.Contains (.str c.path :: c.words.map (fun w => .str w.word) ++ [.null]) := by
  intro h
  have htokens : yylex (oneWord [49, 46, 53] (by simp) (by decide)).text =
      [.tokenTask, .openBrace, .tokenName, .alphaWord [115], .semicolon, .tokenPath, .path [47],
        .semicolon, .tokenArgs, .number [49], .number [53], .semicolon, .endBrace] := by
    decide +kernel
  obtain ⟨task, htask, hargs⟩ := h (oneWord [49, 46, 53] (by simp) (by decide)) _
    (by rw [htokens]; rfl)
  cases htask
  obtain ⟨junk, hslots, -⟩ := hargs
  have hsecond := (List.cons.inj (List.cons.inj hslots).2).1
  cases hsecond

end Bitzer
