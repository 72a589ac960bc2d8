import Bitzer.Conf.Ignored

/-!
# Quoted arguments

What becomes of an argument when it is put in quotes: the tokens before it and
after it stay as they are, and so does its own token, unless it is an `ARGKEY`,
which takes the closing quote into the word and leaves the quotes of the list
unbalanced.
-/

namespace Bitzer

open Lib Lib.Regex

/-! ## The text before the word -/

section
variable {bol : Bool} {p q x y : Str} {b c : UInt8}

/-- The rules that match both a blank and a quote. -/
theorem blank_quote_rules {r : Rule} (hr : r ∈ rules) (hb : b = 32 ∨ b = 9)
    (hub : r.pattern.uses b = true) (huq : r.pattern.uses 34 = true) :
    r = .word Pattern.envar .envar ∨ r = commentRule := by
  have hothers : ((rules.take 15 ++ (rules.drop 16).take 2).all fun r =>
      !((r.pattern.uses 32 || r.pattern.uses 9) && r.pattern.uses 34)) = true := by decide
  have hsplit : rules.take 18 =
      rules.take 15 ++ .word Pattern.envar .envar :: (rules.drop 16).take 2 := rfl
  rcases mem_rules_iff.mp hr with hr | rfl
  · rw [hsplit, List.mem_append, List.mem_cons, or_left_comm, ← List.mem_append] at hr
    rcases hr with rfl | hr
    · exact Or.inl rfl
    · have := List.all_eq_true.mp hothers r hr
      rcases hb with rfl | rfl <;> simp [hub, huq] at this
  · exact Or.inr rfl

/-- An `ENVAR` that goes beyond a blank has its `=` before the blank. -/
theorem envar_blank {u : Str} (hb : b = 32 ∨ b = 9) (h : q ++ [b] ++ u ∈ Pattern.envar.lang) :
    q ++ [b] ∈ Pattern.envar.lang := by
  obtain ⟨a, key, val, heq, halpha, hkey, -, hval⟩ := mem_envar.mp h
  have hnot : b ∉ a :: key := by
    intro hmem
    have hbad : isAlpha b = false ∧ keyByte b = false := by rcases hb with rfl | rfl <;> decide
    rcases List.mem_cons.mp hmem with rfl | hmem
    · rw [hbad.1] at halpha
      cases halpha
    · have hbkey := hkey b hmem
      rw [hbad.2] at hbkey
      cases hbkey
  rcases List.append_eq_append_iff.mp heq with ⟨c, hc, -⟩ | ⟨c, hc, hu⟩
  · exact absurd (hc ▸ by simp) hnot
  · cases c with
    | nil => exact absurd (by rw [List.append_nil] at hc; exact hc ▸ by simp) hnot
    | cons d c =>
        obtain ⟨rfl, hval'⟩ := List.cons.inj hu
        refine mem_envar.mpr ⟨a, key, c, hc, halpha, hkey, ?_, fun e he => hval e ?_⟩
        · rintro rfl
          have hlast := congrArg List.getLast? hc
          rw [List.getLast?_concat, List.getLast?_concat] at hlast
          obtain rfl := Option.some.inj hlast
          rcases hb with hb | hb <;> exact absurd hb (by decide)
        · rw [hval']
          exact List.mem_append_left _ he

/-- After a blank nothing is matched beyond it when a quote follows, if that was
so with another word there. -/
theorem Bounded.quote (hb : b = 32 ∨ b = 9) (hc : c ≠ 59 ∧ c ≠ 10) (hxy : 10 ∈ y → 10 ∈ x)
    (h : Bounded bol (q ++ [b]) (c :: x)) : Bounded bol (q ++ [b]) (34 :: y) := by
  intro r hr hbol n hn hle hmem
  obtain ⟨d, z, t, hd, htake⟩ := take_beyond hn hle
  obtain ⟨rfl, rfl⟩ := List.cons.inj hd
  rw [htake] at hmem
  have hshorter : ∀ k,
      (q ++ [b] ++ c :: x).take ((q ++ [b]).length + (k + 1)) ∉ r.pattern.lang := by
    intro k hk
    by_cases hlen : (q ++ [b]).length + (k + 1) ≤ (q ++ [b] ++ c :: x).length
    · exact h r hr hbol _ (by omega) hlen hk
    · rw [List.take_of_length_le (by omega)] at hk
      exact h r hr hbol _ (by simp) le_rfl (by rwa [List.take_length])
  rcases blank_quote_rules hr hb (uses_of_mem hmem (by simp)) (uses_of_mem hmem (by simp)) with
    rfl | rfl
  · -- an `ENVAR` would go on with the other word too
    have hword := hshorter 0
    rw [List.take_length_add_append, List.take_succ_cons, List.take_zero] at hword
    exact hword (envar_concat (envar_blank hb hmem) hc)
  · -- a comment would reach its newline there too
    obtain ⟨u, hu, h10⟩ := mem_comment.mp hmem
    rcases List.eq_nil_or_concat z with rfl | ⟨z, e, rfl⟩
    · have hlast := congrArg List.getLast? hu
      rw [← List.cons_append, List.getLast?_concat, List.getLast?_concat] at hlast
      exact absurd (Option.some.inj hlast) (by decide)
    rw [List.concat_eq_append, ← List.cons_append, ← List.append_assoc, ← List.cons_append] at hu
    obtain ⟨hbody, he⟩ := List.append_inj' hu rfl
    obtain rfl := (List.cons.inj he).1
    have h10x : 10 ∈ x := hxy (by simp)
    obtain ⟨x₁, x₂, rfl, hx₁⟩ := List.eq_append_cons_of_mem h10x
    obtain ⟨v, hv, h10v⟩ : ∃ v, q ++ [b] = 35 :: v ∧ 10 ∉ v := by
      cases hqb : q ++ [b] with
      | nil => simp at hqb
      | cons a v =>
          rw [hqb, List.cons_append] at hbody
          obtain ⟨rfl, rfl⟩ := List.cons.inj hbody
          exact ⟨v, rfl, fun h => h10 (List.mem_append_left _ h)⟩
    refine hshorter (x₁.length + 1) ?_
    rw [List.take_length_add_append, List.take_succ_cons, hv, List.take_length_add_append]
    refine mem_comment.mpr ⟨v ++ c :: x₁, by simp, ?_⟩
    simp only [List.mem_cons, List.mem_append, not_or]
    exact ⟨h10v, Ne.symm hc.2, hx₁⟩

/-- The lexemes of `p` with `y` after it are those with `x` after it, where `y`
allows no match beyond an end of `p` that `x` does not allow. -/
theorem scan_prefix {l₁ l₂ : List Lexeme} (h : scanFrom lexeme 0 bol (p ++ x) = l₁ ++ l₂)
    (hp : l₁.flatMap Lexeme.text = p) (hx : x.head? ≠ some 10)
    (hxy : ∀ bol q, q ≠ [] → q <:+ p → Bounded bol q x → Bounded bol q y) :
    scanFrom lexeme 0 bol (p ++ y) = l₁ ++ scanFrom lexeme 0 (bolAfter bol p) y := by
  induction l₁ generalizing bol p with
  | nil =>
      subst hp
      rfl
  | cons k l₁ ih =>
      rw [List.flatMap_cons] at hp
      have hs : p ++ x ≠ [] := by
        intro hnil
        rw [hnil] at h
        cases h
      obtain ⟨w, v, k', heq, hw, rfl, hlex, hcase⟩ := lexeme_cases bol hs
      have hscan : scanFrom lexeme 0 bol (p ++ x) =
          k' :: scanFrom lexeme 0 (endsLine k'.text) v := by
        rw [heq]
        exact scanFrom_step hw (heq ▸ hlex)
      rw [hscan, List.cons_append] at h
      obtain ⟨rfl, htail⟩ := List.cons.inj h
      obtain ⟨p', hp'⟩ : ∃ p', l₁.flatMap Lexeme.text = p' := ⟨_, rfl⟩
      rw [hp'] at hp
      subst hp
      have hv : v = p' ++ x := by
        rw [List.append_assoc] at heq
        exact (List.append_cancel_left heq).symm
      subst hv
      have hbound : Bounded bol (k'.text ++ p') x := by
        intro q hq hqbol n hn hle hmem
        rw [List.append_assoc] at hmem hle
        rcases hcase with ⟨r, hwin, -⟩ | ⟨a, -, hno, -⟩
        · refine hwin.longest q hq hqbol n ?_ hle hmem
          rw [List.length_append] at hn
          rcases mem_rules_iff.mp hwin.mem with hr | rfl
          · rw [(plain_rules r hr).2.1]
            omega
          · -- the newline of a comment is in `p'`
            obtain ⟨-, u, t, -, -, ht⟩ := hwin.comment
            cases p' with
            | nil => exact absurd (by rw [List.nil_append] at ht; rw [ht]; rfl) hx
            | cons d p' =>
                simp only [commentRule, List.length_cons] at hn ⊢
                omega
        · rw [List.append_assoc] at hno
          exact hno q hq hqbol n hmem
      have hlex' : lexeme bol (k'.text ++ p' ++ y) = (k'.text.length, endsLine k'.text, k') := by
        have hne : k'.text ++ p' ≠ [] := by simp [hw]
        rw [← hlex]
        exact (lexeme_congr hne hbound (hxy bol _ hne (List.suffix_refl _) hbound)).symm
      have hrest := ih htail hp' fun bol q hq hsuf =>
        hxy bol q hq (hsuf.trans (List.suffix_append _ _))
      rw [List.append_assoc] at hlex' ⊢
      rw [scanFrom_step hw hlex', hrest, bolAfter_append hw, List.cons_append]

/-! ## The word and its quotes -/

/-- The beginning of a line matters to comments only. -/
theorem lexeme_bol {bol' : Bool} {a : UInt8} (ha : a ≠ 35) :
    lexeme bol (a :: x) = lexeme bol' (a :: x) := by
  have hlen : ∀ q ∈ rules, q.len bol (a :: x) = q.len bol' (a :: x) := by
    intro q hq
    rcases mem_rules_iff.mp hq with hq | rfl
    · rw [Rule.len_eq (by simp [plain_rules q hq]), Rule.len_eq (by simp [plain_rules q hq])]
    · have hnone : commentRule.pattern.longest (a :: x) = none := by
        cases hl : commentRule.pattern.longest (a :: x) with
        | none => rfl
        | some n =>
            obtain ⟨u, hu, -⟩ := mem_comment.mp (longest_some hl).2
            cases n with
            | zero => cases hu
            | succ n => exact absurd (List.cons.inj hu).1 ha
      unfold Rule.len
      rw [hnone, ite_self, ite_self]
  unfold lexeme
  rw [firstLongest_congr hlen]

/-- The rules of the tokens that an argument can be. -/
theorem arg_rule {r : Rule} {w : Str} {t : Token} (hr : r ∈ rules) (hact : r.action w = some t)
    (ht : t.innerArg ≠ none) :
    r = .word Pattern.number .number ∨ r = .word Pattern.alnumWord .alnumWord ∨
      r = .word Pattern.alphaWord .alphaWord ∨ r = .word Pattern.argKey .argKey := by
  simp only [rules, List.mem_cons, List.not_mem_nil, or_false] at hr
  rcases hr with rfl | rfl | rfl | rfl | rfl | rfl | rfl | rfl | rfl | rfl | rfl | rfl | rfl | rfl |
    rfl | rfl | rfl | rfl | rfl <;> first | exact absurd rfl (by cases hact; exact ht) | tauto

/-- The four patterns of arguments. -/
theorem arg_patterns {r : Rule} {w : Str}
    (hr : r = .word Pattern.number .number ∨ r = .word Pattern.alnumWord .alnumWord ∨
      r = .word Pattern.alphaWord .alphaWord ∨ r = .word Pattern.argKey .argKey)
    (hw : w ∈ r.pattern.lang) :
    r ∈ rules.take 18 ∧ 10 ∉ w ∧ ∃ c u, w = c :: u ∧ c ≠ 59 ∧ c ≠ 10 ∧ c ≠ 35 := by
  have huse : r.pattern.uses 10 = false ∧ r.pattern.nullable = false ∧
      noneStart [r] 59 = true ∧ noneStart [r] 10 = true ∧ noneStart [r] 35 = true := by
    rcases hr with rfl | rfl | rfl | rfl <;> decide
  obtain ⟨h10, hnull, h59, h10', h35⟩ := huse
  refine ⟨by rcases hr with rfl | rfl | rfl | rfl <;> simp [rules], ?_, ?_⟩
  · intro hmem
    rw [uses_of_mem hw hmem] at h10
    cases h10
  · cases w with
    | nil =>
        rw [nil_mem_lang.mp hw] at hnull
        cases hnull
    | cons c u =>
        refine ⟨c, u, rfl, ?_, ?_, ?_⟩
        · rintro rfl
          exact not_mem_of_canStart h59 r (List.mem_singleton.mpr rfl) hw
        · rintro rfl
          exact not_mem_of_canStart h10' r (List.mem_singleton.mpr rfl) hw
        · rintro rfl
          exact not_mem_of_canStart h35 r (List.mem_singleton.mpr rfl) hw

/-- What may begin with a letter or a digit and contain a quote. -/
theorem quote_rules {a : UInt8} (h : keyByte a = true) :
    a ≠ 45 ∧ ∀ r ∈ otherRules, r.pattern.canStart a = false ∨ r.pattern.uses 34 = false := by
  have := forall_byte (p := fun a => !keyByte a || (a != 45 && otherRules.all fun r =>
    !r.pattern.canStart a || !r.pattern.uses 34)) (by decide +kernel) a
  simpa only [h, Bool.not_true, Bool.false_or, Bool.and_eq_true, List.all_eq_true, Bool.or_eq_true,
    Bool.not_eq_true', bne_iff_ne] using this

/-- A quote ends every argument but an `ARGKEY`. -/
theorem bounded_quote {r : Rule} {w : Str}
    (hr : r = .word Pattern.number .number ∨ r = .word Pattern.alnumWord .alnumWord ∨
      r = .word Pattern.alphaWord .alphaWord) (hw : w ∈ r.pattern.lang) :
    w ∉ Pattern.argKey.lang ∧ Bounded bol w (34 :: y) := by
  have h61 : 61 ∉ w := by
    intro hmem
    have huse : r.pattern.uses 61 = false := by rcases hr with rfl | rfl | rfl <;> decide
    rw [uses_of_mem hw hmem] at huse
    cases huse
  obtain ⟨c, u, rfl, hc⟩ : ∃ c u, w = c :: u ∧ keyByte c = true := by
    rcases hr with rfl | rfl | rfl
    · obtain ⟨c, u, rfl, hc, -⟩ := mem_lang_cons_cls.mp hw
      exact ⟨c, u, rfl, by simp [keyByte, hc]⟩
    · obtain ⟨d, hd, v, -, rfl⟩ := mem_lang_seq.mp hw
      obtain ⟨c, u, rfl, hc, -⟩ := mem_lang_cons_cls.mp hd
      exact ⟨c, u ++ v, rfl, by simp [keyByte, hc]⟩
    · obtain ⟨c, u, rfl, hc, -⟩ := mem_lang_cons_cls.mp hw
      exact ⟨c, u, rfl, by simp [keyByte, hc]⟩
  obtain ⟨h45, hrules⟩ := quote_rules hc
  constructor
  · intro hmem
    obtain ⟨v, -, -, hv | hv⟩ := mem_argKey.mp hmem
    · exact h45 (List.cons.inj hv).1
    · exact h45 (List.cons.inj hv).1
  · intro q hq _ n hn hle hmem
    obtain ⟨d, z, t, hd, htake⟩ := take_beyond hn hle
    obtain ⟨rfl, rfl⟩ := List.cons.inj hd
    rw [htake] at hmem
    rcases mem_rules hq with hq | rfl
    · rcases hrules q hq with hno | hno
      · rw [canStart_of_mem hmem] at hno
        cases hno
      · rw [uses_of_mem hmem (by simp)] at hno
        cases hno
    · exact not_envar h61 (by decide) (by decide) hmem

/-! ## An `ARGKEY` and the quote after it -/

/-- After an `ARGKEY` comes a byte that cannot be part of it. -/
theorem Wins.argKey_end {r : Rule} {w z : Str} (h : Wins bol r w (c :: z)) (hr : r ∈ rules.take 18)
    (hw : w ∈ Pattern.argKey.lang) : argByte c = false := by
  cases hc : argByte c with
  | false => rfl
  | true =>
      have hlong : w ++ [c] ∈ Pattern.argKey.lang :=
        (argKey_append hw).mpr fun d hd => List.mem_singleton.mp hd ▸ hc
      exact absurd hlong (h.concat_not_mem hr (q := .word Pattern.argKey .argKey) (by simp [rules]))

/-- An `ARGKEY` takes in the quote after it. -/
theorem tokensFrom_argKey_quote {w post : Str} (hw : w ∈ Pattern.argKey.lang)
    (hend : ∀ c z, post = c :: z → argByte c = false) :
    ∃ s, tokensFrom bol (w ++ 34 :: post) = .argKey s :: tokensFrom false post := by
  have hquote : w ++ [34] ∈ Pattern.argKey.lang :=
    (argKey_append hw).mpr (List.forall_mem_singleton.mpr (by decide))
  obtain ⟨a, u, rfl, ha, -⟩ := mem_lang_cons_cls.mp hw
  obtain rfl : a = '-'.toUInt8 := by simpa [oneOf, bytes] using ha
  have hlong : Longest ('-'.toUInt8 :: u ++ [34]) post := by
    intro q hq n hn hle hmem
    obtain ⟨c, z, t, rfl, htake⟩ := take_beyond hn hle
    rw [htake] at hmem
    have hsplit : rules = rules.take 14 ++ .word Pattern.argKey .argKey :: rules.drop 15 := rfl
    have hothers : noneStart (rules.take 14 ++ rules.drop 15) 45 = true := by decide
    rw [hsplit, List.mem_append, List.mem_cons, or_left_comm, ← List.mem_append] at hq
    rcases hq with rfl | hq
    · have hc := (argKey_append hquote).mp hmem c List.mem_cons_self
      rw [hend c _ rfl] at hc
      cases hc
    · exact not_mem_of_canStart hothers q hq hmem
  obtain ⟨-, -, -, hpre, -⟩ := punct_rules
  have htoken : tokensFrom bol (('-'.toUInt8 :: u ++ [34]) ++ post) = _ :=
    tokensFrom_word 14 rfl rfl rfl hquote (by simp) (not_mem_of_canStart hpre) hlong
  rw [List.append_assoc, List.singleton_append] at htoken
  have hline : endsLine ('-'.toUInt8 :: u ++ [34]) = false := by
    rw [endsLine, List.getLast?_concat]
    rfl
  refine ⟨strdup ('-'.toUInt8 :: u ++ [34]), ?_⟩
  rw [htoken, hline]
  rfl

end

/-! ## The parse -/

/-- Two parses of an args list, the second a quote ahead of the first. -/
inductive Ahead : Pos → Pos → Prop
  | outside (s : Str) : Ahead .argsList (.argEndQuote s)
  | opened : Ahead .argQuote .argsList
  | word (s : Str) : Ahead (.argEndQuote s) .argsList
  | closed : Ahead .argsList .argQuote

theorem Ahead.next {p q p' q' : Pos} {t : Token} {f g : Action} (h : Ahead p q)
    (hp : p.next t = some (p', f)) (hq : q.next t = some (q', g)) : Ahead p' q' := by
  cases h with
  | outside s =>
      cases t with
      | quote =>
          cases hp
          cases hq
          exact .opened
      | _ => cases hq
  | opened =>
      cases t with
      | string s | argKey s | alphaWord s | alnumWord s | number s =>
          cases hp
          cases hq
          exact .word s
      | _ => cases hp
  | word s =>
      cases t with
      | quote =>
          cases hp
          cases hq
          exact .closed
      | _ => cases hp
  | closed =>
      cases t with
      | string s | argKey s | alphaWord s | alnumWord s | number s =>
          cases hp
          cases hq
          exact .outside s
      | _ => cases hq

/-- Only one of them can come to the end of the list. -/
theorem Ahead.not_both {p q : Pos} {ts : List Token} {f g : Action} (h : Ahead p q)
    (hp : p.run ts = some (.tasks, f)) : q.run ts ≠ some (.tasks, g) := by
  induction ts generalizing p q f g with
  | nil =>
      cases hp
      cases h
  | cons t ts ih =>
      intro hq
      obtain ⟨⟨p', f₁⟩, hpn, hp⟩ := Option.bind_eq_some_iff.mp hp
      obtain ⟨⟨p'', f₂⟩, hprun, hp⟩ := Option.bind_eq_some_iff.mp hp
      cases hp
      obtain ⟨⟨q', g₁⟩, hqn, hq⟩ := Option.bind_eq_some_iff.mp hq
      obtain ⟨⟨q'', g₂⟩, hqrun, hq⟩ := Option.bind_eq_some_iff.mp hq
      cases hq
      exact ih (h.next hpn hqn) hprun hqrun

section
variable {ts us : List Token} {t : Token} {f : Action} {st : ParseState}

/-- An argument in quotes is the same argument. -/
theorem accept_quoted (hpos : Pos.tasks.run ts = some (.argsList, f)) (ht : t.innerArg ≠ none)
    (hacc : yyparse .tasks ⟨[], none⟩ (ts ++ t :: us) = .accept st) :
    yyparse .tasks ⟨[], none⟩ (ts ++ .quote :: t :: .quote :: us) = .accept st := by
  obtain ⟨s, hs⟩ := Option.ne_none_iff_exists'.mp ht
  have hplain := Arg.run (.plain hs)
  have hquoted := Arg.run (.quoted hs)
  obtain ⟨g, hrun, hst⟩ := yyparse_accept.mp hacc
  refine yyparse_accept.mpr ⟨g, ?_, hst⟩
  have hlist : Pos.argsList.run ([t] ++ us) = Pos.argsList.run ([.quote, t, .quote] ++ us) := by
    rw [Pos.run_append hplain, Pos.run_append hquoted]
  rw [Pos.run_append hpos] at hrun ⊢
  rw [List.singleton_append] at hlist
  rwa [hlist] at hrun

/-- An argument without its closing quote is not accepted in its place. -/
theorem not_accept_open {s : Str} {st' : ParseState}
    (hpos : Pos.tasks.run ts = some (.argsList, f)) (ht : t.innerArg ≠ none)
    (hacc : yyparse .tasks ⟨[], none⟩ (ts ++ t :: us) = .accept st) :
    yyparse .tasks ⟨[], none⟩ (ts ++ .quote :: .argKey s :: us) ≠ .accept st' := by
  intro hopen
  obtain ⟨v, hv⟩ := Option.ne_none_iff_exists'.mp ht
  obtain ⟨g, hrun, -⟩ := yyparse_accept.mp hacc
  obtain ⟨g', hrun', -⟩ := yyparse_accept.mp hopen
  have hplain : Pos.argsList.run [t] = some (.argsList, argAction v) := Arg.run (.plain hv)
  have hquote : Pos.argsList.run [.quote, .argKey s] = some (.argEndQuote s, .skip) := rfl
  obtain ⟨g₁, hlist⟩ := Pos.run_of_append hpos hrun
  obtain ⟨g₂, hlist'⟩ := Pos.run_of_append hpos hrun'
  obtain ⟨_, hp⟩ : ∃ f, Pos.argsList.run us = some (.tasks, f) := Pos.run_of_append hplain hlist
  obtain ⟨_, hq⟩ : ∃ f, (Pos.argEndQuote s).run us = some (.tasks, f) :=
    Pos.run_of_append hquote hlist'
  exact (Ahead.outside s).not_both hp hq

end

/-! ## Quoting a word of a text -/

/-- `w` stands after a blank in an unquoted place of an args list, and is one
token there. -/
structure ArgWord (pre w post : Str) (t : Token) : Prop where
  blank : ∃ q b, pre = q ++ [b] ∧ (b = 32 ∨ b = 9 ∨ b = 10)
  arg : t.innerArg ≠ none
  scanned : ∃ l₁ l₂ f,
    lexemes (pre ++ (w ++ post)) = l₁ ++ { text := w, token := some t } :: l₂ ∧
      l₁.flatMap Lexeme.text = pre ∧
      Pos.tasks.run (l₁.filterMap Lexeme.token) = some (.argsList, f)

/-- The word of such a place: its rule, and what is scanned around it. -/
theorem ArgWord.cases {pre w post : Str} {t : Token} (h : ArgWord pre w post t) :
    ∃ r ts f, (r = .word Pattern.number .number ∨ r = .word Pattern.alnumWord .alnumWord ∨
        r = .word Pattern.alphaWord .alphaWord ∨ r = .word Pattern.argKey .argKey) ∧
      Wins (bolAfter true pre) r w post ∧ r.action w = some t ∧
      Pos.tasks.run ts = some (.argsList, f) ∧
      lexeme (bolAfter true pre) (w ++ post) =
        (w.length, false, { text := w, token := some t }) ∧
      yylex (pre ++ (w ++ post)) = ts ++ t :: tokensFrom false post ∧
      yylex (pre ++ 34 :: (w ++ 34 :: post)) =
        ts ++ .quote :: tokensFrom false (w ++ 34 :: post) := by
  obtain ⟨q, b, hpre, hb⟩ := h.blank
  obtain ⟨l₁, l₂, f, hlex, htext, hpos⟩ := h.scanned
  obtain ⟨v, heq, hne, hw, hrest⟩ := scan_split hlex
  rw [htext] at heq hw
  obtain rfl : post = v := List.append_cancel_left (List.append_cancel_left heq)
  obtain ⟨w', v', x, hsplit, -, rfl, hlex', hcase⟩ :=
    lexeme_cases (bolAfter true pre) (List.append_ne_nil_of_left_ne_nil hne post)
  rw [hw] at hlex'
  obtain rfl := (Prod.mk.inj (Prod.mk.inj hlex').2).2
  obtain rfl : post = v' := List.append_cancel_left hsplit
  obtain ⟨r, hwin, hact⟩ : ∃ r, Wins (bolAfter true pre) r w post ∧ r.action w = some t := by
    rcases hcase with ⟨r, hwin, hx⟩ | ⟨_, -, -, hx⟩
    · exact ⟨r, hwin, (congrArg Lexeme.token hx).symm⟩
    · exact absurd (congrArg Lexeme.token hx) (by simp)
  have hrule := arg_rule hwin.mem hact h.arg
  have hplain : r ∈ rules.take 18 := by
    rcases hrule with rfl | rfl | rfl | rfl <;> simp [rules]
  obtain ⟨-, h10, c, u, hc, h59, hc10, -⟩ := arg_patterns hrule (hwin.mem_lang hplain)
  have hline : endsLine w = false := endsLine_eq_false h10
  rw [hline] at hw
  refine ⟨r, l₁.filterMap Lexeme.token, f, hrule, hwin, hact, hpos, hw, ?_, ?_⟩
  · rw [yylex, hlex, List.filterMap_append, List.filterMap_cons, ← hrest, hline]
    rfl
  · -- a newline of the new text is one of the old text
    have hnl : 10 ∈ w ++ 34 :: post → 10 ∈ u ++ post := by
      intro hmem
      rcases List.mem_append.mp hmem with hmem | hmem
      · exact absurd hmem h10
      · exact List.mem_append_right u ((List.mem_cons.mp hmem).resolve_left (by decide))
    -- the lexemes before the word stay
    have hbounded : ∀ bol p, p ≠ [] → p <:+ pre → Bounded bol p (w ++ post) →
        Bounded bol p (34 :: (w ++ 34 :: post)) := by
      intro bol p hp hsuf hbound
      obtain ⟨q', hq'⟩ : ∃ q', p = q' ++ [b] := by
        obtain ⟨q', e, rfl⟩ := List.eq_nil_or_concat p |>.resolve_left hp
        obtain ⟨z, hz⟩ := hsuf
        rw [hpre, List.concat_eq_append, ← List.append_assoc] at hz
        obtain ⟨-, he⟩ := List.append_inj' hz rfl
        exact ⟨q', by rw [List.concat_eq_append, he]⟩
      subst hq'
      rcases hb with hb | hb | rfl
      · rw [hc] at hbound
        exact hbound.quote (Or.inl hb) ⟨h59, hc10⟩ hnl
      · rw [hc] at hbound
        exact hbound.quote (Or.inr hb) ⟨h59, hc10⟩ hnl
      · exact bounded_newline
    have hscan : lexemes (pre ++ 34 :: (w ++ 34 :: post)) =
        l₁ ++ scanFrom lexeme 0 (bolAfter true pre) (34 :: (w ++ 34 :: post)) := by
      refine scan_prefix hlex htext ?_ hbounded
      rw [hc]
      simpa using hc10
    rw [yylex, hscan, List.filterMap_append]
    exact congrArg _ (tokensFrom_punct (by simp))

/-- Quoting an argument of an accepted configuration gives an accepted
configuration with the same arguments if and only if the word is no `ARGKEY`. -/
theorem quoting_iff {pre w post : Str} {t : Token} {st : ParseState} (h : ArgWord pre w post t)
    (hacc : yyparse .tasks ⟨[], none⟩ (yylex (pre ++ (w ++ post))) = .accept st) :
    (∃ st', yyparse .tasks ⟨[], none⟩ (yylex (pre ++ 34 :: (w ++ 34 :: post))) = .accept st' ∧
      st'.tasksList.map Task.args = st.tasksList.map Task.args) ↔ w ∉ Pattern.argKey.lang := by
  obtain ⟨r, ts, f, hrule, hwin, hact, hpos, hlex, hold, hnew⟩ := h.cases
  have hplain : r ∈ rules.take 18 := by
    rcases hrule with rfl | rfl | rfl | rfl <;> simp [rules]
  have hmem := hwin.mem_lang hplain
  rw [hold] at hacc
  rw [hnew]
  by_cases hkey : w ∈ Pattern.argKey.lang
  · -- the closing quote is gone
    refine iff_of_false ?_ (not_not.mpr hkey)
    rintro ⟨st', haccept, -⟩
    have hend : ∀ c z, post = c :: z → argByte c = false := by
      rintro c z rfl
      exact hwin.argKey_end hplain hkey
    obtain ⟨s, hs⟩ := tokensFrom_argKey_quote hkey hend
    rw [hs] at haccept
    exact not_accept_open hpos h.arg hacc haccept
  · refine iff_of_true ⟨st, ?_, rfl⟩ hkey
    have hrule' : r = .word Pattern.number .number ∨ r = .word Pattern.alnumWord .alnumWord ∨
        r = .word Pattern.alphaWord .alphaWord := by
      rcases hrule with hr | hr | hr | rfl
      · exact Or.inl hr
      · exact Or.inr (Or.inl hr)
      · exact Or.inr (Or.inr hr)
      · exact absurd hmem hkey
    have hword : tokensFrom false (w ++ 34 :: post) = t :: .quote :: tokensFrom false post := by
      obtain ⟨-, h10, c, u, hc, -, -, hc35⟩ := arg_patterns hrule hmem
      have hne : w ≠ [] := by simp [hc]
      have hbol : lexeme false (w ++ 34 :: post) =
          lexeme (bolAfter true pre) (w ++ 34 :: post) := by
        rw [hc]
        exact lexeme_bol hc35
      have hend : endsLine w = false := endsLine_eq_false h10
      have hbound : Bounded (bolAfter true pre) w post := fun q hq hqbol n hn hle =>
        hwin.bounded hplain hn hle hq hqbol
      have hlex' : lexeme false (w ++ 34 :: post) =
          (w.length, endsLine w, { text := w, token := some t }) := by
        rw [hend, hbol, ← hlex]
        exact (lexeme_congr hne hbound (bounded_quote hrule' hmem).2).symm
      rw [tokensFrom_lexeme hne hlex', hend, tokensFrom_punct (t := .quote) (by simp)]
      rfl
    rw [hword]
    exact accept_quoted hpos h.arg hacc

/-- `task{name s;args 1;}`, with the `1` in quotes. -/
theorem quoting_iff_number : ∃ st : ParseState,
    (∃ st', yyparse .tasks ⟨[], none⟩ (yylex ([116, 97, 115, 107, 123, 110, 97, 109, 101, 32, 115,
        59, 97, 114, 103, 115, 32] ++ 34 :: ([49] ++ 34 :: [59, 125]))) = .accept st' ∧
      st'.tasksList.map Task.args = st.tasksList.map Task.args) ↔ [49] ∉ Pattern.argKey.lang := by
  have hlex : lexemes ([116, 97, 115, 107, 123, 110, 97, 109, 101, 32, 115, 59, 97, 114, 103, 115,
      32] ++ ([49] ++ [59, 125])) =
      [⟨[116, 97, 115, 107], some .tokenTask, false⟩, ⟨[123], some .openBrace, false⟩,
        ⟨[110, 97, 109, 101], some .tokenName, false⟩, ⟨[32], none, false⟩,
        ⟨[115], some (.alphaWord [115]), false⟩, ⟨[59], some .semicolon, false⟩,
        ⟨[97, 114, 103, 115], some .tokenArgs, false⟩, ⟨[32], none, false⟩] ++
        ⟨[49], some (.number [49]), false⟩ ::
        [⟨[59], some .semicolon, false⟩, ⟨[125], some .endBrace, false⟩] := by decide +kernel
  have hpos : Pos.tasks.run [.tokenTask, .openBrace, .tokenName, .alphaWord [115], .semicolon,
      .tokenArgs] = some (.argsList, _) := rfl
  have hword : ArgWord [116, 97, 115, 107, 123, 110, 97, 109, 101, 32, 115, 59, 97, 114, 103, 115,
      32] [49] [59, 125] (.number [49]) :=
    ⟨⟨_, _, (List.dropLast_append_getLast (by simp)).symm, by decide⟩, nofun, _, _, _, hlex, rfl,
      hpos⟩
  exact ⟨_, quoting_iff hword (by rw [yylex, hlex]; rfl)⟩

/-- `task{name s;args -x;}`, with the `-x` in quotes. -/
theorem not_quoting : ¬∀ pre w post t st, ArgWord pre w post t → 34 ∉ w →
    yyparse .tasks ⟨[], none⟩ (yylex (pre ++ (w ++ post))) = .accept st →
    ∃ st', yyparse .tasks ⟨[], none⟩ (yylex (pre ++ 34 :: (w ++ 34 :: post))) = .accept st' ∧
      st'.tasksList.map Task.args = st.tasksList.map Task.args := by
  intro h
  have hlex : lexemes ([116, 97, 115, 107, 123, 110, 97, 109, 101, 32, 115, 59, 97, 114, 103, 115,
      32] ++ ([45, 120] ++ [59, 125])) =
      [⟨[116, 97, 115, 107], some .tokenTask, false⟩, ⟨[123], some .openBrace, false⟩,
        ⟨[110, 97, 109, 101], some .tokenName, false⟩, ⟨[32], none, false⟩,
        ⟨[115], some (.alphaWord [115]), false⟩, ⟨[59], some .semicolon, false⟩,
        ⟨[97, 114, 103, 115], some .tokenArgs, false⟩, ⟨[32], none, false⟩] ++
        ⟨[45, 120], some (.argKey [45, 120]), false⟩ ::
        [⟨[59], some .semicolon, false⟩, ⟨[125], some .endBrace, false⟩] := by decide +kernel
  have hpos : Pos.tasks.run [.tokenTask, .openBrace, .tokenName, .alphaWord [115], .semicolon,
      .tokenArgs] = some (.argsList, _) := rfl
  have hword : ArgWord [116, 97, 115, 107, 123, 110, 97, 109, 101, 32, 115, 59, 97, 114, 103, 115,
      32] [45, 120] [59, 125] (.argKey [45, 120]) :=
    ⟨⟨_, _, (List.dropLast_append_getLast (by simp)).symm, by decide⟩, nofun, _, _, _, hlex, rfl,
      hpos⟩
  obtain ⟨st', haccept, -⟩ := h _ _ _ _ _ hword (by decide) (by rw [yylex, hlex]; rfl)
  have htokens : yylex ([116, 97, 115, 107, 123, 110, 97, 109, 101, 32, 115, 59, 97, 114, 103, 115,
      32] ++ 34 :: ([45, 120] ++ 34 :: [59, 125])) =
      [.tokenTask, .openBrace, .tokenName, .alphaWord [115], .semicolon, .tokenArgs, .quote,
        .argKey [45, 120, 34], .semicolon, .endBrace] := by decide +kernel
  rw [htokens] at haccept
  cases haccept

end Bitzer
