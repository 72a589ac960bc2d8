import Bitzer.Conf.Words

/-!
# The lexemes of a text

The scanner on any text: what a lexeme can be, that the lexemes are the text cut
into pieces, and when the text after a place does not change the lexemes before
it.
-/

namespace Bitzer

open Lib Lib.Regex

/-! ## One lexeme -/

/-- The rule of comments. -/
def commentRule : Rule :=
  { bol := true, pattern := Pattern.comment, trail := 1, action := fun _ => none }

section
variable {bol : Bool} {r : Rule} {p s w x y : Str}

/-- The other rules hold anywhere and have no trailing context. -/
theorem plain_rules : ∀ r ∈ rules.take 18,
    r.bol = false ∧ r.trail = 0 ∧ r.pattern.nullable = false := by
  decide

theorem mem_rules_iff : r ∈ rules ↔ r ∈ rules.take 18 ∨ r = commentRule := by
  have hsplit : rules = rules.take 18 ++ [commentRule] := rfl
  rw [hsplit, List.mem_append, List.mem_singleton]
  rfl

theorem mem_comment : w ∈ Pattern.comment.lang ↔ ∃ u, w = 35 :: (u ++ [10]) ∧ 10 ∉ u := by
  rw [Pattern.comment, mem_lang_cons_cls]
  constructor
  · rintro ⟨a, v, rfl, ha, hv⟩
    obtain rfl : a = '#'.toUInt8 := by simpa [oneOf, bytes] using ha
    obtain ⟨u, hu, z, ⟨b, hb, rfl⟩, rfl⟩ := mem_lang_seq.mp hv
    obtain rfl : b = '\n'.toUInt8 := by simpa [oneOf, bytes] using hb
    refine ⟨u, rfl, fun hmem => ?_⟩
    exact absurd (mem_lang_star_cls.mp hu 10 hmem) (by decide)
  · rintro ⟨u, rfl, hu⟩
    refine ⟨35, _, rfl, by decide, mem_lang_seq.mpr ⟨u, mem_lang_star_cls.mpr ?_, [10],
      ⟨10, by decide, rfl⟩, rfl⟩⟩
    intro c hc
    have hne : c ≠ 10 := fun h => hu (h ▸ hc)
    simp only [oneOf, bytes, List.map_cons, List.map_nil, List.contains_cons, List.contains_nil,
      Bool.or_false, Bool.not_eq_true', beq_eq_false_iff_ne]
    exact hne

/-- A match is longer than its trailing context. -/
theorem trail_lt (hr : r ∈ rules) (hw : w ∈ r.pattern.lang) : r.trail < w.length := by
  rcases mem_rules_iff.mp hr with hr | rfl
  · obtain ⟨-, htrail, hnull⟩ := plain_rules r hr
    rw [htrail]
    cases w with
    | nil =>
        rw [nil_mem_lang.mp hw] at hnull
        cases hnull
    | cons a w => exact Nat.succ_pos _
  · obtain ⟨u, rfl, -⟩ := mem_comment.mp hw
    simp [commentRule]

/-- What the rule is that gives the lexeme `w` at the start of `s`: it matches `w`
and its trailing context, no rule matches more, and none before it as much. -/
structure Wins (bol : Bool) (r : Rule) (w s : Str) : Prop where
  mem : r ∈ rules
  atBol : r.bol = true → bol = true
  matched : (w ++ s).take (w.length + r.trail) ∈ r.pattern.lang
  trail : w.length + r.trail ≤ (w ++ s).length
  longest : ∀ q ∈ rules, (q.bol = true → bol = true) → ∀ n, w.length + r.trail < n →
    n ≤ (w ++ s).length → (w ++ s).take n ∉ q.pattern.lang
  first : ∃ pre post, rules = pre ++ r :: post ∧ ∀ q ∈ pre, (q.bol = true → bol = true) →
    (w ++ s).take (w.length + r.trail) ∉ q.pattern.lang

/-- No rule matches at the start of `s`. -/
def NoMatch (bol : Bool) (s : Str) : Prop :=
  ∀ q ∈ rules, (q.bol = true → bol = true) → ∀ n, s.take n ∉ q.pattern.lang

theorem Rule.len_some {n : Nat} (h : r.len bol s = some n) :
    (r.bol = true → bol = true) ∧ r.pattern.longest s = some n := by
  unfold Rule.len at h
  split at h
  · cases h
  · rename_i hb
    exact ⟨by simpa using hb, h⟩

theorem Rule.len_eq (h : r.bol = true → bol = true) : r.len bol s = r.pattern.longest s := by
  unfold Rule.len
  rw [if_neg]
  simpa using h

/-- The lexeme at the start of a text, by a rule or by default. -/
theorem lexeme_cases (bol : Bool) (hs : s ≠ []) :
    ∃ w v x, s = w ++ v ∧ w ≠ [] ∧ x.text = w ∧ lexeme bol s = (w.length, endsLine w, x) ∧
      ((∃ r, Wins bol r w v ∧ x = { text := w, token := r.action w }) ∨
        (∃ a, w = [a] ∧ NoMatch bol s ∧ x = { text := w, token := none, echoed := true })) := by
  cases hbest : firstLongest (Rule.len bol s) rules with
  | none =>
      obtain ⟨a, v, rfl⟩ := List.exists_cons_of_ne_nil hs
      refine ⟨[a], v, _, rfl, by simp, rfl, by rw [lexeme, hbest]; rfl,
        Or.inr ⟨a, rfl, ?_, rfl⟩⟩
      intro q hq hbol n
      have hlen := firstLongest_eq_none.mp hbest q hq
      rw [Rule.len_eq hbol] at hlen
      exact not_mem_of_longest_none hlen
  | some best =>
      obtain ⟨r, n⟩ := best
      obtain ⟨pre, post, hrules, hr, hpre, hall⟩ := firstLongest_some hbest
      obtain ⟨hbol, hlong⟩ := Rule.len_some hr
      obtain ⟨hle, hmem⟩ := longest_some hlong
      have hmemr : r ∈ rules := by simp [hrules]
      have htrail : r.trail < n := by
        have := trail_lt hmemr hmem
        rwa [List.length_take_of_le hle] at this
      have hlen : (s.take (n - r.trail)).length = n - r.trail :=
        List.length_take_of_le (by omega)
      have hn : (s.take (n - r.trail)).length + r.trail = n := by omega
      have hs' : s.take (n - r.trail) ++ s.drop (n - r.trail) = s := List.take_append_drop _ _
      refine ⟨s.take (n - r.trail), s.drop (n - r.trail), _, hs'.symm, ?_, rfl,
        by rw [lexeme, hbest], Or.inl ⟨r, ⟨hmemr, hbol, ?_, ?_, ?_, pre, post, hrules, ?_⟩, rfl⟩⟩
      · intro hnil
        rw [hnil] at hlen
        simp only [List.length_nil] at hlen
        omega
      · rw [hs', hn]
        exact hmem
      · rw [hs', hn]
        exact hle
      · intro q hq hqbol m hm hms hqm
        rw [hs'] at hms hqm
        rw [hn] at hm
        obtain ⟨k, hk, hmk⟩ := longest_max (v := s.drop m) hqm
        rw [List.take_append_drop] at hk
        rw [List.length_take_of_le hms] at hmk
        have := hall q hq k (by rw [Rule.len_eq hqbol]; exact hk)
        omega
      · intro q hq hqbol hqm
        rw [hs', hn] at hqm
        obtain ⟨k, hk, hmk⟩ := longest_max (v := s.drop n) hqm
        rw [List.take_append_drop] at hk
        rw [List.length_take_of_le hle] at hmk
        have := hpre q hq k (by rw [Rule.len_eq hqbol]; exact hk)
        omega

theorem Wins.mem_lang (h : Wins bol r w s) (hr : r ∈ rules.take 18) : w ∈ r.pattern.lang := by
  have hmatch := h.matched
  rwa [(plain_rules r hr).2.1, Nat.add_zero, List.take_left] at hmatch

/-- Nothing is matched beyond a lexeme of a rule without trailing context. -/
theorem Wins.bounded (h : Wins bol r w s) (hr : r ∈ rules.take 18) {n : Nat} (hn : w.length < n)
    (hle : n ≤ (w ++ s).length) {q : Rule} (hq : q ∈ rules) (hbol : q.bol = true → bol = true) :
    (w ++ s).take n ∉ q.pattern.lang := by
  refine h.longest q hq hbol n ?_ hle
  rwa [(plain_rules r hr).2.1]

/-- A byte that stays behind does not make the lexeme a longer match. -/
theorem Wins.concat_not_mem {c : UInt8} (h : Wins bol r w (c :: s)) (hr : r ∈ rules.take 18)
    {q : Rule} (hq : q ∈ rules.take 18) : w ++ [c] ∉ q.pattern.lang := by
  have hbol : q.bol = true → bol = true := by
    rw [(plain_rules q hq).1]
    exact fun h => absurd h Bool.false_ne_true
  have hshort := h.bounded hr (Nat.lt_succ_self _) (by simp) (List.mem_of_mem_take hq) hbol
  rwa [Nat.succ_eq_add_one, List.take_length_add_append] at hshort

/-- A comment begins a line and ends before a newline. -/
theorem Wins.comment (h : Wins bol commentRule w s) :
    bol = true ∧ ∃ u v, w = 35 :: u ∧ 10 ∉ u ∧ s = 10 :: v := by
  obtain ⟨u, hu, h10⟩ := mem_comment.mp h.matched
  have hlen : w.length + 1 = u.length + 2 := by
    have := congrArg List.length hu
    rw [List.length_take_of_le h.trail] at this
    simpa [commentRule] using this
  have htake : (w ++ s).take (w.length + 1) = w ++ s.take 1 := List.take_length_add_append 1
  have heq : w ++ s.take 1 = 35 :: u ++ [10] := by
    rw [← htake]
    exact hu
  obtain ⟨hw, hs⟩ := List.append_inj heq (by simp only [List.length_cons]; omega)
  refine ⟨h.atBol rfl, u, s.drop 1, hw, h10, ?_⟩
  rw [← List.take_append_drop 1 s, hs]
  rfl

/-! ## The cut -/

/-- The beginning-of-line flag after `u`. -/
def bolAfter (bol : Bool) (u : Str) : Bool := if u = [] then bol else endsLine u

theorem bolAfter_append (hw : w ≠ []) : bolAfter bol (w ++ s) = bolAfter (endsLine w) s := by
  unfold bolAfter endsLine
  cases s with
  | nil => simp [hw]
  | cons a s => simp [List.getLast?_append]

theorem endsLine_eq_false (h : 10 ∉ w) : endsLine w = false := by
  cases hend : endsLine w with
  | false => rfl
  | true =>
      rw [endsLine, beq_iff_eq] at hend
      exact absurd (List.mem_of_getLast? hend) h

/-- The scan of a text is its first lexeme and the scan of the rest. -/
theorem scan_cons (bol : Bool) (hs : s ≠ []) :
    ∃ w v x, s = w ++ v ∧ w ≠ [] ∧ x.text = w ∧ lexeme bol s = (w.length, endsLine w, x) ∧
      scanFrom lexeme 0 bol s = x :: scanFrom lexeme 0 (endsLine w) v := by
  obtain ⟨w, v, x, rfl, hw, hx, hlex, -⟩ := lexeme_cases bol hs
  exact ⟨w, v, x, rfl, hw, hx, hlex, scanFrom_step hw hlex⟩

theorem tokensFrom_lexeme {v : Str} {k : Lexeme} (hw : w ≠ [])
    (h : lexeme bol (w ++ v) = (w.length, endsLine w, k)) :
    tokensFrom bol (w ++ v) = k.token.toList ++ tokensFrom (endsLine w) v := by
  rw [tokensFrom, scanFrom_step hw h, List.filterMap_cons, tokensFrom]
  cases k.token <;> rfl

/-- Nothing is lost and nothing is scanned twice. -/
theorem scan_flatMap : (scanFrom lexeme 0 bol s).flatMap Lexeme.text = s := by
  induction hn : s.length using Nat.strong_induction_on generalizing bol s with
  | _ n ih =>
    by_cases hs : s = []
    · rw [hs]
      rfl
    · obtain ⟨w, v, x, rfl, hw, hx, -, hscan⟩ := scan_cons bol hs
      have hlt : v.length < n := by
        rw [← hn, List.length_append]
        have := List.length_pos_iff.mpr hw
        omega
      rw [hscan, List.flatMap_cons, hx, ih _ hlt rfl]

theorem lexemes_flatMap : (lexemes s).flatMap Lexeme.text = s := scan_flatMap

/-- A lexeme in the middle of a scan. -/
theorem scan_split {l₁ l₂ : List Lexeme} {z : Lexeme}
    (h : scanFrom lexeme 0 bol s = l₁ ++ z :: l₂) :
    ∃ v, s = l₁.flatMap Lexeme.text ++ (z.text ++ v) ∧ z.text ≠ [] ∧
      lexeme (bolAfter bol (l₁.flatMap Lexeme.text)) (z.text ++ v) =
        (z.text.length, endsLine z.text, z) ∧
      scanFrom lexeme 0 (endsLine z.text) v = l₂ := by
  induction l₁ generalizing bol s with
  | nil =>
      have hs : s ≠ [] := by
        rintro rfl
        cases h
      obtain ⟨w, v, x, rfl, hw, rfl, hlex, hscan⟩ := scan_cons bol hs
      rw [hscan] at h
      obtain ⟨rfl, rfl⟩ := List.cons.inj h
      exact ⟨v, rfl, hw, hlex, rfl⟩
  | cons y l₁ ih =>
      have hs : s ≠ [] := by
        rintro rfl
        cases h
      obtain ⟨w, v, x, rfl, hw, rfl, hlex, hscan⟩ := scan_cons bol hs
      rw [hscan, List.cons_append] at h
      obtain ⟨rfl, htail⟩ := List.cons.inj h
      obtain ⟨v', rfl, hz, hlex', hrest⟩ := ih htail
      refine ⟨v', by simp, hz, ?_, hrest⟩
      rw [List.flatMap_cons, bolAfter_append hw]
      exact hlex'

/-! ## Where the rest of the text does not matter -/

/-- No rule matches beyond `p`. -/
def Bounded (bol : Bool) (p s : Str) : Prop :=
  ∀ q ∈ rules, (q.bol = true → bol = true) → ∀ n, p.length < n → n ≤ (p ++ s).length →
    (p ++ s).take n ∉ q.pattern.lang

theorem lexeme_congr (hp : p ≠ []) (hx : Bounded bol p x) (hy : Bounded bol p y) :
    lexeme bol (p ++ x) = lexeme bol (p ++ y) := by
  have hlen : ∀ q ∈ rules, q.len bol (p ++ x) = q.len bol (p ++ y) := by
    intro q hq
    unfold Rule.len
    split
    · rfl
    · rename_i hb
      have hqbol : q.bol = true → bol = true := by simpa using hb
      exact longest_append_congr (hx q hq hqbol) (hy q hq hqbol)
  have hbest : firstLongest (Rule.len bol (p ++ x)) rules =
      firstLongest (Rule.len bol (p ++ y)) rules := firstLongest_congr hlen
  have htake : ∀ n ≤ p.length, (p ++ x).take n = (p ++ y).take n := by
    intro n hn
    rw [List.take_append_of_le_length hn, List.take_append_of_le_length hn]
  unfold lexeme
  rw [← hbest]
  split
  · rename_i r n hwin
    obtain ⟨hr, hn⟩ := firstLongest_mem hwin
    obtain ⟨hbol, hlong⟩ := Rule.len_some hn
    obtain ⟨hle, hmem⟩ := longest_some hlong
    have hnp : n ≤ p.length := Nat.not_lt.mp fun hlt => hx r hr hbol n hlt hle hmem
    rw [htake (n - r.trail) (by omega)]
  · rw [htake 1 (List.length_pos_iff.mpr hp)]

/-- The rules that match a newline, and the rules that match a text that begins
with `#`. -/
theorem line_rules :
    (∀ r ∈ rules.take 18, r.pattern.uses 10 = false ∨ ∀ w ∈ r.pattern.lang, w = [10]) ∧
      noneStart (rules.take 18) 35 = true := by
  refine ⟨fun r hr => ?_, by decide⟩
  have hsplit : rules.take 18 =
      rules.take 16 ++ .skip (lit (bytes ['\n'])) :: (rules.drop 17).take 1 := rfl
  have hplain : ((rules.take 16 ++ (rules.drop 17).take 1).all fun r =>
      !r.pattern.uses 10) = true := by decide
  rw [hsplit, List.mem_append, List.mem_cons, or_left_comm, ← List.mem_append] at hr
  rcases hr with rfl | hr
  · exact Or.inr fun w hw => mem_lang_lit.mp hw
  · exact Or.inl (by simpa using List.all_eq_true.mp hplain r hr)

/-- A word with a newline and something before it is a comment. -/
theorem newline_match {q : Rule} (hq : q ∈ rules) (hw : w ∈ q.pattern.lang) (h10 : 10 ∈ w)
    (hne : w ≠ [10]) : q = commentRule := by
  rcases mem_rules_iff.mp hq with hq | rfl
  · rcases line_rules.1 q hq with huse | hlit
    · rw [uses_of_mem hw h10] at huse
      cases huse
    · exact absurd (hlit w hw) hne
  · rfl

/-- Nothing is matched beyond a newline. -/
theorem bounded_line {u rest : Str} (hu : u ≠ []) : Bounded bol (u ++ [10]) rest := by
  intro q hq _ n hn hle hmem
  obtain ⟨c, z, t, rfl, htake⟩ := take_beyond hn hle
  rw [htake] at hmem
  have hlong : u ++ [10] ++ c :: z ≠ [10] := by
    intro h
    have := congrArg List.length h
    simp at this
    omega
  obtain rfl := newline_match hq hmem (by simp) hlong
  obtain ⟨y, hy, h10⟩ := mem_comment.mp hmem
  -- the comment would have a newline before its last byte
  obtain ⟨a, u, rfl⟩ := List.exists_cons_of_ne_nil hu
  have htail : u ++ 10 :: c :: z = y ++ [10] := by
    simpa using (List.cons.inj hy).2
  have hdrop := congrArg List.dropLast htail
  rw [List.dropLast_append_cons, List.dropLast_cons_cons, List.dropLast_concat] at hdrop
  exact h10 (hdrop ▸ by simp)

/-- After a newline nothing is matched beyond it. -/
theorem bounded_newline : Bounded bol (p ++ [10]) s := by
  by_cases hp : p = []
  · subst hp
    exact fun r hr _ => longest_newline r hr
  · exact bounded_line hp

end

end Bitzer
