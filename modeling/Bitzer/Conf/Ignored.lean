import Bitzer.Conf.Lexemes
import Bitzer.Conf.Meaning

/-!
# Bytes that reach no token

Which bytes of a text belong to no token: blanks, newlines, comments, and the
bytes at which no rule matches, which are echoed and are gone.
-/

namespace Bitzer

open Lib Lib.Regex

/-! ## Places in a text -/

/-- The lexeme `x` stands after `u` in the text. -/
def LexemeAt (s u : Str) (x : Lexeme) : Prop :=
  ∃ l₁ l₂, lexemes s = l₁ ++ x :: l₂ ∧ u = l₁.flatMap Lexeme.text

/-- The byte at `i` is on a line that begins with `#`. -/
def OnComment (s : Str) (i : Nat) : Prop :=
  ∃ u v, s = u ++ 35 :: v ∧ (u = [] ∨ endsLine u = true) ∧ u.length ≤ i ∧
    10 ∉ v.take (i - u.length - 1)

/-- Each byte that is not a blank, a newline or on a comment line is part of a
token. -/
def NoByteLost (s : Str) : Prop :=
  ∀ i c, s[i]? = some c → c ∉ bytes [' ', '\t', '\n'] → ¬OnComment s i →
    ∃ u x, LexemeAt s u x ∧ u.length ≤ i ∧ i < u.length + x.text.length ∧ x.token ≠ none

/-- A byte that may follow the dashes of an `ARGKEY`. -/
def argByte (c : UInt8) : Bool := !(isDigit c || oneOf [' ', '\t', '\n', ';', '-'] c)

/-- An `ARGKEY` goes on like this after its first dash. -/
def argTail : Str → Bool
  | [] => false
  | [c] => argByte c
  | c :: d :: _ => argByte c || (c == 45 && argByte d)

/-- A byte with which a lexeme can begin, whatever follows. -/
def startByte (c : UInt8) : Bool :=
  isAlpha c || isDigit c || oneOf ['{', '}', '"', ';', '/', ' ', '\t', '\n'] c

/-- The text begins with a letter, a digit, one of `{}";/`, a blank, a newline,
or the dash of an `ARGKEY`. -/
def recognised : Str → Bool
  | [] => true
  | c :: s => startByte c || (c == 45 && argTail s)

/-! ## Where a rule matches -/

/-- The rules but those of `ARGKEY` and of comments. -/
def startRules : List Rule := rules.take 14 ++ (rules.drop 15).take 3

theorem mem_rules_start {r : Rule} : r ∈ rules.take 18 ↔
    r ∈ startRules ∨ r = .word Pattern.argKey .argKey := by
  have hsplit : rules.take 18 =
      rules.take 14 ++ .word Pattern.argKey .argKey :: (rules.drop 15).take 3 := rfl
  rw [hsplit, startRules, List.mem_append, List.mem_append, List.mem_cons]
  tauto

theorem start_rules (c : UInt8) :
    (startByte c = true → ∃ r ∈ startRules, [c] ∈ r.pattern.lang) ∧
      (startByte c = false → noneStart startRules c = true) := by
  have := forall_byte (p := fun c => if startByte c then
    startRules.any fun r => r.pattern.accepts [c] else noneStart startRules c)
    (by decide +kernel) c
  constructor
  · intro h
    rw [if_pos h] at this
    obtain ⟨r, hr, hacc⟩ := List.any_eq_true.mp this
    exact ⟨r, hr, accepts_iff.mp hacc⟩
  · intro h
    rwa [if_neg (by simp [h])] at this

theorem mem_argKey {w : Str} : w ∈ Pattern.argKey.lang ↔
    ∃ v, v ≠ [] ∧ (∀ c ∈ v, argByte c = true) ∧ (w = 45 :: v ∨ w = 45 :: 45 :: v) := by
  rw [Pattern.argKey, mem_lang_cons_cls]
  constructor
  · rintro ⟨a, u, rfl, ha, hu⟩
    obtain rfl : a = '-'.toUInt8 := by simpa [oneOf, bytes] using ha
    obtain ⟨d, hd, v, hv, rfl⟩ := mem_lang_seq.mp hu
    obtain ⟨hne, hall⟩ := mem_lang_plus_cls.mp hv
    refine ⟨v, hne, hall, ?_⟩
    rcases mem_lang_opt.mp hd with ⟨b, hb, rfl⟩ | rfl
    · obtain rfl : b = '-'.toUInt8 := by simpa [oneOf, bytes] using hb
      exact Or.inr rfl
    · exact Or.inl rfl
  · rintro ⟨v, hne, hall, rfl | rfl⟩
    · exact ⟨45, v, rfl, by decide, mem_lang_seq.mpr ⟨[], mem_lang_opt.mpr (Or.inr rfl), v,
        mem_lang_plus_cls.mpr ⟨hne, hall⟩, rfl⟩⟩
    · exact ⟨45, 45 :: v, rfl, by decide, mem_lang_seq.mpr ⟨[45],
        mem_lang_opt.mpr (Or.inl ⟨45, by decide, rfl⟩), v,
        mem_lang_plus_cls.mpr ⟨hne, hall⟩, rfl⟩⟩

theorem argKey_append {w u : Str} (hw : w ∈ Pattern.argKey.lang) :
    w ++ u ∈ Pattern.argKey.lang ↔ ∀ c ∈ u, argByte c = true := by
  obtain ⟨v, hne, hall, hv⟩ := mem_argKey.mp hw
  constructor
  · intro h
    obtain ⟨v', -, hall', hv'⟩ := mem_argKey.mp h
    intro c hc
    refine hall' c ?_
    rcases hv with rfl | rfl <;> rcases hv' with hv' | hv'
    · rw [← (List.cons.inj hv').2]
      exact List.mem_append_right _ hc
    · obtain ⟨d, v, rfl⟩ := List.exists_cons_of_ne_nil hne
      rw [← (List.cons.inj (List.cons.inj hv').2).2]
      exact List.mem_append_right _ hc
    · rw [← (List.cons.inj hv').2]
      exact List.mem_append_right _ hc
    · rw [← (List.cons.inj (List.cons.inj hv').2).2]
      exact List.mem_append_right _ hc
  · intro hu
    refine mem_argKey.mpr ⟨v ++ u, by simp [hne], fun c hc => ?_, ?_⟩
    · exact (List.mem_append.mp hc).elim (hall c) (hu c)
    · rcases hv with rfl | rfl
      · exact Or.inl rfl
      · exact Or.inr rfl

/-- An `ARGKEY` at the start of a text. -/
theorem argTail_iff {s : Str} :
    argTail s = true ↔ ∃ n, (45 :: s).take n ∈ Pattern.argKey.lang := by
  constructor
  · intro h
    match s, h with
    | [c], h => exact ⟨2, mem_argKey.mpr ⟨[c], by simp, by simpa [argTail] using h, Or.inl rfl⟩⟩
    | c :: d :: s, h =>
        simp only [argTail, Bool.or_eq_true, Bool.and_eq_true, beq_iff_eq] at h
        rcases h with h | ⟨rfl, h⟩
        · exact ⟨2, mem_argKey.mpr ⟨[c], by simp, by simpa using h, Or.inl rfl⟩⟩
        · exact ⟨3, mem_argKey.mpr ⟨[d], by simp, by simpa using h, Or.inr rfl⟩⟩
  · rintro ⟨n, h⟩
    obtain ⟨v, hne, hall, hv⟩ := mem_argKey.mp h
    obtain ⟨e, v, rfl⟩ := List.exists_cons_of_ne_nil hne
    have he := hall e List.mem_cons_self
    cases n with
    | zero => rcases hv with hv | hv <;> cases hv
    | succ n =>
        rw [List.take_succ_cons] at hv
        rcases hv with hv | hv
        · have htail := (List.cons.inj hv).2
          match s, n, htail with
          | [], _, htail => simp at htail
          | [c], n + 1, htail =>
              obtain ⟨rfl, -⟩ := List.cons.inj htail
              exact he
          | c :: d :: s, n + 1, htail =>
              obtain ⟨rfl, -⟩ := List.cons.inj htail
              simp [argTail, he]
        · have htail := (List.cons.inj hv).2
          match s, n, htail with
          | [], _, htail => simp at htail
          | [c], n + 1, htail => simp at htail
          | c :: d :: s, n + 1, htail =>
              obtain ⟨rfl, hrest⟩ := List.cons.inj htail
              cases n with
              | zero => cases hrest
              | succ n =>
                  obtain ⟨rfl, -⟩ := List.cons.inj hrest
                  simp [argTail, he]

/-- A rule other than that of comments matches at the start of a text if and only
if the text is recognised. -/
theorem recognised_iff {s : Str} (hs : s ≠ []) :
    recognised s = true ↔ ∃ r ∈ rules.take 18, ∃ n, s.take n ∈ r.pattern.lang := by
  obtain ⟨c, s, rfl⟩ := List.exists_cons_of_ne_nil hs
  rw [recognised, Bool.or_eq_true, Bool.and_eq_true, beq_iff_eq]
  constructor
  · rintro (h | ⟨rfl, h⟩)
    · obtain ⟨r, hr, hmem⟩ := (start_rules c).1 h
      exact ⟨r, mem_rules_start.mpr (Or.inl hr), 1, hmem⟩
    · obtain ⟨n, hn⟩ := argTail_iff.mp h
      exact ⟨_, mem_rules_start.mpr (Or.inr rfl), n, hn⟩
  · rintro ⟨r, hr, n, hmem⟩
    have hpos : 0 < ((c :: s).take n).length := by
      have := trail_lt (mem_rules_iff.mpr (Or.inl hr)) hmem
      omega
    obtain ⟨n, rfl⟩ : ∃ k, n = k + 1 := by
      cases n with
      | zero => simp at hpos
      | succ n => exact ⟨n, rfl⟩
    rcases mem_rules_start.mp hr with hr | rfl
    · cases hstart : startByte c with
      | true => exact Or.inl rfl
      | false =>
          rw [List.take_succ_cons] at hmem
          exact absurd hmem (not_mem_of_canStart ((start_rules c).2 hstart) r hr)
    · obtain ⟨v, -, -, hv⟩ := mem_argKey.mp hmem
      obtain rfl : c = 45 := by
        rcases hv with hv | hv <;> exact (List.cons.inj hv).1
      exact Or.inr ⟨rfl, argTail_iff.mpr ⟨_, hmem⟩⟩

/-! ## The lexeme at a place -/

section
variable {s u u' : Str} {x x' : Lexeme} {i : Nat}

theorem LexemeAt.cases (h : LexemeAt s u x) :
    ∃ v, s = u ++ (x.text ++ v) ∧ x.text ≠ [] ∧
      ((∃ r, Wins (bolAfter true u) r x.text v ∧ x = { text := x.text, token := r.action x.text }) ∨
        (∃ a, x.text = [a] ∧ NoMatch (bolAfter true u) (x.text ++ v) ∧ x.token = none)) := by
  obtain ⟨l₁, l₂, hsplit, rfl⟩ := h
  obtain ⟨v, hs, hne, hlex, -⟩ := scan_split hsplit
  obtain ⟨w, v', y, heq, -, rfl, hlex', hcase⟩ :=
    lexeme_cases (bolAfter true (l₁.flatMap Lexeme.text)) (List.append_ne_nil_of_left_ne_nil hne v)
  rw [hlex] at hlex'
  obtain rfl : x = y := (Prod.mk.inj (Prod.mk.inj hlex').2).2
  obtain rfl : v = v' := List.append_cancel_left heq
  refine ⟨v, hs, hne, ?_⟩
  rcases hcase with ⟨r, hwin, hx⟩ | ⟨a, ha, hno, hx⟩
  · exact Or.inl ⟨r, hwin, hx⟩
  · exact Or.inr ⟨a, ha, hno, by rw [hx]⟩

/-- Every place of a text is in a lexeme. -/
theorem lexeme_covers (hi : i < s.length) :
    ∃ u x, LexemeAt s u x ∧ u.length ≤ i ∧ i < u.length + x.text.length := by
  have hcover : ∀ l : List Lexeme, i < (l.flatMap Lexeme.text).length →
      ∃ l₁ x l₂, l = l₁ ++ x :: l₂ ∧ (l₁.flatMap Lexeme.text).length ≤ i ∧
        i < (l₁.flatMap Lexeme.text).length + x.text.length := by
    intro l hl
    induction l using List.reverseRecOn with
    | nil => simp at hl
    | append_singleton l x ih =>
        by_cases hlt : i < (l.flatMap Lexeme.text).length
        · obtain ⟨l₁, y, l₂, rfl, hle, hlt⟩ := ih hlt
          exact ⟨l₁, y, l₂ ++ [x], by simp, hle, hlt⟩
        · rw [List.flatMap_append, List.length_append, List.flatMap_singleton] at hl
          exact ⟨l, x, [], rfl, Nat.not_lt.mp hlt, hl⟩
  obtain ⟨l₁, x, l₂, hl, hle, hlt⟩ := hcover (lexemes s) (by rwa [lexemes_flatMap])
  exact ⟨_, x, ⟨l₁, l₂, hl, rfl⟩, hle, hlt⟩

/-- And in one only. -/
theorem LexemeAt.unique (h : LexemeAt s u x) (h' : LexemeAt s u' x') (hle : u.length ≤ i)
    (hlt : i < u.length + x.text.length) (hle' : u'.length ≤ i)
    (hlt' : i < u'.length + x'.text.length) : x = x' := by
  obtain ⟨l₁, l₂, hl, rfl⟩ := h
  obtain ⟨l₁', l₂', hl', rfl⟩ := h'
  rw [hl] at hl'
  rcases List.append_eq_append_iff.mp hl' with ⟨c, rfl, hc⟩ | ⟨c, rfl, hc⟩
  · cases c with
    | nil => exact (List.cons.inj hc).1
    | cons y c =>
        obtain ⟨rfl, -⟩ := List.cons.inj hc
        simp only [List.flatMap_append, List.flatMap_cons, List.length_append] at hle'
        omega
  · cases c with
    | nil => exact (List.cons.inj hc).1.symm
    | cons y c =>
        obtain ⟨rfl, -⟩ := List.cons.inj hc
        simp only [List.flatMap_append, List.flatMap_cons, List.length_append] at hle
        omega

theorem getElem?_lexeme {v : Str} (hne : x.text ≠ []) :
    (u ++ (x.text ++ v))[u.length]? = x.text.head? := by
  obtain ⟨a, w, hw⟩ := List.exists_cons_of_ne_nil hne
  rw [hw]
  simp

/-- The rules that return a token, and those that skip. -/
theorem token_rules {r : Rule} {w : Str} (hr : r ∈ rules.take 18) (hw : w ∈ r.pattern.lang) :
    r.action w ≠ none ∨ ∀ c ∈ w, c ∈ bytes [' ', '\t', '\n'] := by
  have hsplit : rules.take 18 = rules.take 16 ++
      [.skip (lit (bytes ['\n'])), .skip Pattern.blanks] := rfl
  rw [hsplit, List.mem_append, List.mem_pair] at hr
  rcases hr with hr | rfl | rfl
  · have htoken : ∀ r ∈ rules.take 16, r.action w ≠ none := by
      simp [rules, Rule.fixed, Rule.word]
    exact Or.inl (htoken r hr)
  · obtain rfl := mem_lang_lit.mp hw
    exact Or.inr (by simp [bytes])
  · refine Or.inr fun c hc => ?_
    have := (mem_lang_plus_cls.mp hw).2 c hc
    simp only [oneOf, bytes, List.contains_iff_mem] at this
    simp only [bytes, List.map_cons, List.mem_cons] at this ⊢
    tauto

/-- The bytes of a comment are on a comment line. -/
theorem Wins.onComment {w v : Str} {i : Nat} (h : Wins (bolAfter true u) commentRule w v)
    (hle : u.length ≤ i) (hlt : i < u.length + w.length) : OnComment (u ++ (w ++ v)) i := by
  obtain ⟨hbol, y, z, rfl, h10, rfl⟩ := h.comment
  have hstart : u = [] ∨ endsLine u = true := by
    unfold bolAfter at hbol
    split at hbol
    · exact Or.inl ‹_›
    · exact Or.inr hbol
  refine ⟨u, y ++ 10 :: z, rfl, hstart, hle, fun hmem => ?_⟩
  rw [List.take_append_of_le_length (by simp only [List.length_cons] at hlt; omega)] at hmem
  exact h10 (List.mem_of_mem_take hmem)

/-! ## What is lost -/

/-- A token's lexeme begins with a byte that the rules know. -/
theorem LexemeAt.recognised (hx : LexemeAt s u x) (htoken : x.token ≠ none) :
    recognised (s.drop u.length) = true := by
  obtain ⟨v, rfl, hne, hcase⟩ := hx.cases
  rw [List.drop_left]
  rcases hcase with ⟨r, hwin, heq⟩ | ⟨a, -, -, hnone⟩
  · -- a rule that is not that of comments
    rcases mem_rules_iff.mp hwin.mem with hr | rfl
    · exact (recognised_iff (by simp [hne])).mpr ⟨r, hr, _, hwin.matched⟩
    · rw [heq] at htoken
      exact absurd rfl htoken
  · exact absurd hnone htoken

/-- A known byte that is no blank is part of a token, or on a comment line. -/
theorem LexemeAt.token_ne_none {c : UInt8} {i : Nat} (hx : LexemeAt s u x) (hle : u.length ≤ i)
    (hlt : i < u.length + x.text.length) (hc : s[i]? = some c)
    (hblank : c ∉ bytes [' ', '\t', '\n']) (hcom : ¬OnComment s i)
    (hknown : OnComment s u.length ∨ Bitzer.recognised (s.drop u.length) = true) :
    x.token ≠ none := by
  obtain ⟨v, rfl, hne, hcase⟩ := hx.cases
  have hmem : c ∈ x.text := by
    rw [List.getElem?_append_right hle, List.getElem?_append_left (by omega)] at hc
    exact List.mem_of_getElem? hc
  rcases hcase with ⟨r, hwin, heq⟩ | ⟨a, ha, hno, -⟩
  · rcases mem_rules_iff.mp hwin.mem with hr | rfl
    · rw [heq]
      rcases token_rules hr (hwin.mem_lang hr) with htoken | hskip
      · exact htoken
      · exact absurd (hskip c hmem) hblank
    · exact absurd (hwin.onComment hle hlt) hcom
  · -- the default rule
    rw [ha] at hlt
    obtain rfl : u.length = i := by
      simp only [List.length_singleton] at hlt
      omega
    rcases hknown with hknown | hknown
    · exact absurd hknown hcom
    · rw [List.drop_left] at hknown
      obtain ⟨r, hr, n, hn⟩ := (recognised_iff (by simp [hne])).mp hknown
      have hbol : r.bol = true → bolAfter true u = true := by
        rw [(plain_rules r hr).1]
        exact fun h => absurd h (by simp)
      exact absurd hn (hno r (mem_rules_iff.mpr (Or.inl hr)) hbol n)

/-- No byte is lost if and only if every lexeme off the comment lines begins with
a byte that the rules know there. -/
theorem noByteLost_lexemes (s : Str) :
    NoByteLost s ↔
      ∀ u x, LexemeAt s u x → OnComment s u.length ∨ recognised (s.drop u.length) = true := by
  constructor
  · intro h u x hx
    by_contra hno
    obtain ⟨hcom, hrec⟩ := not_or.mp hno
    obtain ⟨v, rfl, hne, -⟩ := hx.cases
    obtain ⟨c, w, hw⟩ := List.exists_cons_of_ne_nil hne
    have hc : (u ++ (x.text ++ v))[u.length]? = some c := by
      rw [getElem?_lexeme hne, hw, List.head?_cons]
    have hblank : c ∉ bytes [' ', '\t', '\n'] := by
      intro hmem
      have hstart : startByte c = true := by
        have hall : ∀ c ∈ bytes [' ', '\t', '\n'], startByte c = true := by decide +kernel
        exact hall c hmem
      rw [List.drop_left, hw] at hrec
      exact hrec (by simp [recognised, hstart])
    obtain ⟨u', x', hx', hle, hlt, htoken⟩ := h u.length c hc hblank hcom
    obtain rfl := hx.unique hx' le_rfl (by have := List.length_pos_iff.mpr hne; omega) hle hlt
    exact hrec (hx.recognised htoken)
  · intro h i c hc hblank hcom
    have hi : i < s.length := (List.getElem?_eq_some_iff.mp hc).1
    obtain ⟨u, x, hx, hle, hlt⟩ := lexeme_covers hi
    exact ⟨u, x, hx, hle, hlt, hx.token_ne_none hle hlt hc hblank hcom (h u x hx)⟩

end

end Bitzer
