import Bitzer.Conf.Compose

/-!
# The layout of a configuration

The tokens of a text, each put on a line of its own with any indentation and any lines
without tokens between them, are scanned as they were: nothing else in a text has a part
in what it means.
-/

namespace Bitzer

open Lib Lib.Regex

/-- Whole lines without a token, if any. -/
def Silent (g : Str) : Prop := (g = [] ∨ WholeLines g) ∧ yylex g = []

/-- A lexeme on a line of its own, indented, and the lines up to the next one. -/
structure Laid where
  indent : Str
  lexeme : Lexeme
  behind : Str
  blank : ∀ c ∈ indent, oneOf [' ', '\t'] c = true
  silent : Silent behind

def Laid.text (l : Laid) : Str := l.indent ++ (l.lexeme.text ++ 10 :: l.behind)

/-- The lexemes that are tokens. -/
def tokenLexemes (s : Str) : List Lexeme := (lexemes s).filter fun x => x.token.isSome

section
variable {s g rest : Str} {x : Lexeme} {r : Rule} {w v : Str} {bol : Bool}

/-! ## The lexemes of tokens -/

theorem token_rule (hr : r ∈ rules) (h : r.action w ≠ none) : r ∈ rules.take 16 := by
  have hsplit : rules = rules.take 16 ++
      [.skip (lit (bytes ['\n'])), .skip Pattern.blanks, commentRule] := rfl
  rw [hsplit, List.mem_append] at hr
  refine hr.resolve_right fun hskip => h ?_
  simp only [List.mem_cons, List.not_mem_nil, or_false] at hskip
  rcases hskip with rfl | rfl | rfl <;> rfl

/-- Nothing a token begins with is a blank, and no token has a newline in it. -/
theorem token_bytes (hr : r ∈ rules.take 16) (hw : w ∈ r.pattern.lang) : 10 ∉ w ∧
    ∃ a u, w = a :: u ∧ oneOf [' ', '\t'] a = false ∧ a ≠ 35 := by
  have huses : ((rules.take 16).all fun r => !r.pattern.uses 10) = true := by decide
  have hstart : noneStart (rules.take 16) 32 = true ∧ noneStart (rules.take 16) 9 = true ∧
      noneStart (rules.take 16) 35 = true := by decide
  have hne : w ≠ [] := by
    rintro rfl
    have hnull := (plain_rules r (List.take_subset_take_left _ (by decide) hr)).2.2
    rw [nil_mem_lang.mp hw] at hnull
    cases hnull
  obtain ⟨a, u, rfl⟩ := List.exists_cons_of_ne_nil hne
  refine ⟨fun h10 => ?_, a, u, rfl, ?_, ?_⟩
  · have huse := List.all_eq_true.mp huses r hr
    rw [uses_of_mem hw h10] at huse
    cases huse
  · cases hb : oneOf [' ', '\t'] a with
    | false => rfl
    | true =>
        obtain rfl | rfl : a = ' '.toUInt8 ∨ a = '\t'.toUInt8 := by simpa [oneOf, bytes] using hb
        · exact absurd hw (not_mem_of_canStart hstart.1 r hr)
        · exact absurd hw (not_mem_of_canStart hstart.2.1 r hr)
  · rintro rfl
    exact not_mem_of_canStart hstart.2.2 r hr hw

/-- The first word of a line that ends behind it is scanned as it was elsewhere. -/
theorem Wins.own_line (h : Wins bol r w v) (hr : r ∈ rules.take 16) (bol' : Bool) (rest : Str) :
    lexeme bol' (w ++ 10 :: rest) = (w.length, false, { text := w, token := r.action w }) := by
  have hr18 : r ∈ rules.take 18 := List.take_subset_take_left _ (by decide) hr
  have hw := h.mem_lang hr18
  obtain ⟨hbol, htrail, -⟩ := plain_rules r hr18
  obtain ⟨h10, a, u, hau, -, h35⟩ := token_bytes hr hw
  obtain ⟨pre, post, hrules, hfirst⟩ := h.first
  have hi : rules[pre.length]? = some r := by
    rw [hrules]
    exact List.getElem?_append_right (Nat.le_refl _) |>.trans (by simp)
  have htake : rules.take pre.length = pre := by
    rw [hrules]
    exact List.take_left
  have hpre : ∀ q ∈ rules.take pre.length, w ∉ q.pattern.lang := by
    intro q hq hmem
    rw [htake] at hq
    have hqr : q ∈ rules := by
      rw [hrules]
      exact List.mem_append_left _ hq
    rcases mem_rules_iff.mp hqr with hq18 | rfl
    · refine hfirst q hq (by simp [plain_rules q hq18]) ?_
      rwa [htrail, Nat.add_zero, List.take_left]
    · obtain ⟨y, hy, -⟩ := mem_comment.mp hmem
      rw [hau] at hy
      exact h35 (List.cons.inj hy).1
  -- what is longer than the word has the newline in it
  have hlong : Longest w (10 :: rest) := by
    intro q hq n hn hle hmem
    obtain ⟨c, z, t, hz, htake'⟩ := take_beyond hn hle
    obtain ⟨rfl, -⟩ := List.cons.inj hz
    rw [htake'] at hmem
    have hne : w ++ 10 :: z ≠ [10] := by
      rw [hau]
      intro heq
      exact absurd (congrArg List.length heq) (by simp)
    obtain rfl := newline_match hq hmem (List.mem_append_right _ List.mem_cons_self) hne
    obtain ⟨y, hy, -⟩ := mem_comment.mp hmem
    rw [hau] at hy
    exact h35 (List.cons.inj hy).1
  rw [lexeme_eq pre.length hi hbol htrail hw hpre hlong, endsLine_eq_false h10]

theorem lexeme_own_line (hx : x ∈ tokenLexemes s) : ∃ a u, x.text = a :: u ∧
    oneOf [' ', '\t'] a = false ∧ endsLine x.text = false ∧ ∀ bol rest,
      lexeme bol (x.text ++ 10 :: rest) = (x.text.length, false, x) := by
  obtain ⟨hmem, htoken⟩ := List.mem_filter.mp hx
  obtain ⟨l₁, l₂, hsplit⟩ := List.append_of_mem hmem
  obtain ⟨v, -, hne, hlex, -⟩ := scan_split hsplit
  obtain ⟨w, v', y, heq, hw, rfl, hlex', hcase⟩ := lexeme_cases
    (bolAfter true (l₁.flatMap Lexeme.text)) (List.append_ne_nil_of_left_ne_nil hne v)
  rw [hlex, Prod.mk.injEq, Prod.mk.injEq] at hlex'
  obtain ⟨-, -, rfl⟩ := hlex'
  rcases hcase with ⟨r, hwin, hx⟩ | ⟨a, -, -, hx⟩
  · have haction : r.action x.text ≠ none := by
      rw [hx] at htoken
      exact Option.isSome_iff_ne_none.mp htoken
    have hr := token_rule hwin.mem haction
    obtain ⟨h10, a, u, hau, hblank, -⟩ :=
      token_bytes hr (hwin.mem_lang (List.take_subset_take_left _ (by decide) hr))
    refine ⟨a, u, hau, hblank, endsLine_eq_false h10, fun bol rest => ?_⟩
    rw [hwin.own_line hr bol rest, ← hx]
  · rw [hx] at htoken
    cases htoken

/-! ## The scan of a layout -/

theorem Silent.yylex (h : Silent g) (rest : Str) : yylex (g ++ rest) = yylex rest := by
  obtain ⟨rfl | hlines, hnone⟩ := h
  · rfl
  · rw [yylex_append hlines, hnone, List.nil_append]

theorem yylex_laid (l : Laid) (hx : l.lexeme ∈ tokenLexemes s) (rest : Str) :
    yylex (l.text ++ rest) = l.lexeme.token.toList ++ yylex rest := by
  obtain ⟨a, u, htext, ha, hend, hlex⟩ := lexeme_own_line hx
  have hne : l.lexeme.text ≠ [] := by
    rw [htext]
    exact List.cons_ne_nil a u
  have hassoc : l.text ++ rest = l.indent ++ (l.lexeme.text ++ 10 :: (l.behind ++ rest)) := by
    simp [Laid.text]
  obtain ⟨bol, hindent⟩ : ∃ bol, tokensFrom true (l.indent ++
      (l.lexeme.text ++ 10 :: (l.behind ++ rest))) =
        tokensFrom bol (l.lexeme.text ++ 10 :: (l.behind ++ rest)) := by
    rw [htext]
    exact tokensFrom_blanks true l.blank ha
  calc yylex (l.text ++ rest)
      = tokensFrom bol (l.lexeme.text ++ 10 :: (l.behind ++ rest)) := by
        rw [hassoc]
        exact hindent
    _ = l.lexeme.token.toList ++ tokensFrom false (10 :: (l.behind ++ rest)) := by
        rw [tokensFrom_lexeme hne (by rw [hlex, hend]), hend]
    _ = l.lexeme.token.toList ++ yylex rest := by
        rw [tokensFrom_newline]
        exact congrArg _ (l.silent.yylex rest)

theorem yylex_relaid {ls : List Laid} (h : ∀ l ∈ ls, l.lexeme ∈ tokenLexemes s) :
    yylex (ls.flatMap Laid.text) = (ls.map Laid.lexeme).filterMap Lexeme.token := by
  induction ls with
  | nil => rfl
  | cons l ls ih =>
      obtain ⟨hl, hls⟩ := List.forall_mem_cons.mp h
      rw [List.flatMap_cons, yylex_laid l hl, ih hls, List.map_cons, List.filterMap_cons]
      cases l.lexeme.token <;> rfl

theorem filterMap_tokenLexemes (s : Str) : (tokenLexemes s).filterMap Lexeme.token = yylex s := by
  unfold tokenLexemes Bitzer.yylex
  induction lexemes s with
  | nil => rfl
  | cons x xs ih =>
      rw [List.filter_cons, List.filterMap_cons]
      cases h : x.token with
      | none => exact ih
      | some t =>
          refine (congrArg (List.filterMap Lexeme.token) (if_pos rfl)).trans ?_
          rw [List.filterMap_cons, h]
          exact congrArg _ ih

end

/-- **Layout.** A text whose tokens are put on lines of their own, indented in any way
and with any lines without tokens before, between and behind them, has the same tokens;
neither file being empty, they are loaded the same way, whatever was loaded before. -/
theorem layout_irrelevant {s g : Str} {ls : List Laid} (hg : Silent g)
    (hls : ls.map Laid.lexeme = tokenLexemes s) :
    yylex (g ++ ls.flatMap Laid.text) = yylex s ∧
    ∀ k : ConfCalls, k.Succeed → s ≠ [] → g ++ ls.flatMap Laid.text ≠ [] →
      ∀ st, confLoad k (g ++ ls.flatMap Laid.text) st = confLoad k s st := by
  have hmem : ∀ l ∈ ls, l.lexeme ∈ tokenLexemes s := by
    intro l hl
    rw [← hls]
    exact List.mem_map_of_mem hl
  have htokens : yylex (g ++ ls.flatMap Laid.text) = yylex s := by
    rw [hg.yylex, yylex_relaid hmem, hls, filterMap_tokenLexemes]
  refine ⟨htokens, fun k hk hs hne st => ?_⟩
  rw [confLoad_cons hk hne, confLoad_cons hk hs, htokens]

/-- Not indented, and the next one on the next line. -/
def Laid.plain (x : Lexeme) : Laid where
  indent := []
  lexeme := x
  behind := []
  blank := nofun
  silent := ⟨Or.inl rfl, rfl⟩

/-- `task { name s; }` on six lines, behind an empty comment. -/
theorem layout_irrelevant_lines :
    yylex ([35, 10] ++ ((tokenLexemes oneLine).map Laid.plain).flatMap Laid.text) =
      yylex oneLine := by
  have hg : Silent [35, 10] := ⟨Or.inr ⟨[35], rfl⟩, by decide +kernel⟩
  have hls : ((tokenLexemes oneLine).map Laid.plain).map Laid.lexeme = tokenLexemes oneLine := by
    rw [List.map_map]
    exact List.map_id _
  exact (layout_irrelevant hg hls).1

end Bitzer
