import Bitzer.Conf.Scan

/-!
# One lexeme

Which rule wins at the start of a text that begins with a word of the
configuration language and goes on with a byte that ends the word. Only the
first byte of the word and the byte after it matter, since they tell which rules
can match more than the word (`Stops`); the exception is an `ENVAR`, which may
contain blanks, and needs its `=` before them.
-/

namespace Bitzer

open Lib Lib.Regex

/-- A statement about every byte is checked on the 256 of them. -/
theorem forall_byte {p : UInt8 → Bool}
    (h : ∀ i j : Fin 16, p (UInt8.ofNat (16 * i + j)) = true) (c : UInt8) : p c = true := by
  have hlt : c.toNat < 256 := c.toNat_lt
  have hc := h ⟨c.toNat / 16, by omega⟩ ⟨c.toNat % 16, by omega⟩
  rwa [Nat.div_add_mod, UInt8.ofNat_toNat] at hc

/-- No rule matches a text that begins with `a` and contains `b`. -/
def stops (a b : UInt8) : Bool :=
  rules.all fun r => !r.pattern.canStart a || !r.pattern.uses b

/-- No rule matches more than `w`. -/
def Longest (w s : Str) : Prop :=
  ∀ r ∈ rules, ∀ n, w.length < n → n ≤ (w ++ s).length → (w ++ s).take n ∉ r.pattern.lang

theorem longest_of_stops {a b : UInt8} {u s : Str} (h : stops a b = true) :
    Longest (a :: u) (b :: s) := by
  intro r hr n hn _
  have hstop := List.all_eq_true.mp h r hr
  simp only [Bool.or_eq_true, Bool.not_eq_true'] at hstop
  exact not_mem_of_stop hstop hn

/-- A blank or a `;`, which end the words of an option. -/
def endsWord (b : UInt8) : Bool := oneOf [' ', '\t', ';'] b

theorem endsWord_iff {b : UInt8} : endsWord b = true ↔ b = 32 ∨ b = 9 ∨ b = 59 := by
  rw [endsWord, oneOf, List.contains_iff_mem]
  exact List.mem_cons.trans (or_congr_right List.mem_pair)

theorem rules_split {i : Nat} {r : Rule} (hi : rules[i]? = some r) :
    rules = rules.take i ++ r :: rules.drop (i + 1) := by
  obtain ⟨hlt, rfl⟩ := List.getElem?_eq_some_iff.mp hi
  rw [List.getElem_cons_drop, List.take_append_drop]

/-- The rule that a word is given to: the first that matches it, where none
matches more. -/
theorem lexeme_eq {bol : Bool} {w s : Str} (i : Nat) {r : Rule} (hi : rules[i]? = some r)
    (hbol : r.bol = false) (htrail : r.trail = 0) (hw : w ∈ r.pattern.lang)
    (hpre : ∀ q ∈ rules.take i, w ∉ q.pattern.lang) (hlong : Longest w s) :
    lexeme bol (w ++ s) = (w.length, endsLine w, { text := w, token := r.action w }) := by
  have hrules : rules = rules.take i ++ r :: rules.drop (i + 1) := rules_split hi
  -- no rule matches more
  have hle : ∀ q ∈ rules, ∀ m, q.len bol (w ++ s) = some m → m ≤ w.length := by
    intro q hq m hm
    unfold Rule.len at hm
    split at hm
    · cases hm
    · obtain ⟨hlen, hmem⟩ := longest_some hm
      by_contra hlt
      exact hlong q hq m (Nat.not_le.mp hlt) hlen hmem
  have hlen : r.len bol (w ++ s) = some w.length := by
    rw [Rule.len, hbol]
    exact longest_eq hw (hlong r (List.mem_of_getElem? hi))
  -- and none of the rules before `r` matches as much
  have hlt : ∀ q ∈ rules.take i, ∀ m, q.len bol (w ++ s) = some m → m < w.length := by
    intro q hq m hm
    refine lt_of_le_of_ne (hle q (List.mem_of_mem_take hq) m hm) ?_
    rintro rfl
    unfold Rule.len at hm
    split at hm
    · cases hm
    · obtain ⟨-, hmem⟩ := longest_some hm
      rw [List.take_left] at hmem
      exact hpre q hq hmem
  have hbest : firstLongest (Rule.len bol (w ++ s)) rules = some (r, w.length) := by
    have hpost : ∀ q ∈ rules.drop (i + 1), ∀ m, q.len bol (w ++ s) = some m → m ≤ w.length :=
      fun q hq => hle q (List.mem_of_mem_drop hq)
    rw [hrules]
    exact firstLongest_eq hlen hlt hpost
  rw [lexeme, hbest]
  simp [htrail]

/-- The tokens of a text, at the beginning of a line or inside it. -/
def tokensFrom (bol : Bool) (s : Str) : List Token :=
  (scanFrom lexeme 0 bol s).filterMap Lexeme.token

theorem tokensFrom_word {bol : Bool} {w s : Str} (i : Nat) {r : Rule} (hi : rules[i]? = some r)
    (hbol : r.bol = false) (htrail : r.trail = 0) (hw : w ∈ r.pattern.lang) (hne : w ≠ [])
    (hpre : ∀ q ∈ rules.take i, w ∉ q.pattern.lang) (hlong : Longest w s) :
    tokensFrom bol (w ++ s) = (r.action w).toList ++ tokensFrom (endsLine w) s := by
  rw [tokensFrom, scanFrom_step hne (lexeme_eq i hi hbol htrail hw hpre hlong), List.filterMap_cons,
    tokensFrom]
  cases r.action w <;> rfl

/-! ## What the rules make of a byte -/

/-- The rules other than that of `ENVAR`. -/
def otherRules : List Rule := rules.take 15 ++ rules.drop 16

/-- None of the rules matches a text that begins with `a`. -/
def noneStart (rs : List Rule) (a : UInt8) : Bool := rs.all fun q => !q.pattern.canStart a

theorem not_mem_of_canStart {rs : List Rule} {a : UInt8} {u : Str} (h : noneStart rs a = true) :
    ∀ q ∈ rs, a :: u ∉ q.pattern.lang := by
  intro q hq hmem
  have := List.all_eq_true.mp h q hq
  rw [canStart_of_mem hmem] at this
  cases this

/-- A letter. -/
theorem alpha_rules {a : UInt8} (h : isAlpha a = true) :
    oneOf [' ', '\t'] a = false ∧ stops a 59 = true ∧
      noneStart (rules.take 2 ++ (rules.drop 8).take 4) a = true ∧
      (∀ r ∈ otherRules, r.pattern.canStart a = false ∨
        r.pattern.uses 32 = false ∧ r.pattern.uses 9 = false) ∧
      ∀ r ∈ rules.take 15, r.pattern.canStart a = false ∨ r.pattern.uses 61 = false := by
  have := forall_byte (p := fun a => !isAlpha a || (!oneOf [' ', '\t'] a && (stops a 59 &&
    (noneStart (rules.take 2 ++ (rules.drop 8).take 4) a &&
      ((otherRules.all fun r => !r.pattern.canStart a ||
          !r.pattern.uses 32 && !r.pattern.uses 9) &&
        (rules.take 15).all fun r => !r.pattern.canStart a || !r.pattern.uses 61)))))
    (by decide +kernel) a
  simpa only [h, Bool.not_true, Bool.false_or, Bool.and_eq_true, List.all_eq_true,
    Bool.or_eq_true, Bool.not_eq_true'] using this

/-- A digit. -/
theorem digit_rules {a : UInt8} (h : isDigit a = true) :
    oneOf [' ', '\t'] a = false ∧ (stops a 32 = true ∧ stops a 9 = true ∧ stops a 59 = true) ∧
      noneStart (rules.take 10) a = true := by
  have := forall_byte (p := fun a => !isDigit a || (!oneOf [' ', '\t'] a &&
    ((stops a 32 && (stops a 9 && stops a 59)) && noneStart (rules.take 10) a)))
    (by decide +kernel) a
  simpa only [h, Bool.not_true, Bool.false_or, Bool.and_eq_true, Bool.not_eq_true'] using this

/-- The bytes that begin a word are stopped by what ends it. -/
theorem stops_of_endsWord {a b : UInt8}
    (h : stops a 32 = true ∧ stops a 9 = true ∧ stops a 59 = true)
    (hb : endsWord b = true) : stops a b = true := by
  rcases endsWord_iff.mp hb with rfl | rfl | rfl
  · exact h.1
  · exact h.2.1
  · exact h.2.2

theorem stops_blank {a b : UInt8} (ha : oneOf [' ', '\t'] a = true)
    (hb : oneOf [' ', '\t'] b = false) : stops a b = true := by
  have := forall_byte (p := fun b => oneOf [' ', '\t'] b || (stops 32 b && stops 9 b))
    (by decide +kernel) b
  simp only [hb, Bool.false_or, Bool.and_eq_true] at this
  obtain rfl | rfl : a = ' '.toUInt8 ∨ a = '\t'.toUInt8 := by simpa [oneOf, bytes] using ha
  · exact this.1
  · exact this.2

/-- The bytes that begin the other words, and what ends those. -/
theorem punct_rules :
    stops 47 59 = true ∧ (stops 45 32 = true ∧ stops 45 9 = true ∧ stops 45 59 = true) ∧
      noneStart (rules.take 13) 47 = true ∧ noneStart (rules.take 14) 45 = true ∧
      noneStart (rules.take 17) 32 = true ∧ noneStart (rules.take 17) 9 = true := by
  decide +kernel

/-- The bytes with a rule of their own that no other rule can begin with. -/
theorem byte_rules :
    ∀ p ∈ [(0, '{'), (1, '}'), (8, '"'), (9, ';'), (16, '\n')],
      noneStart (rules.take p.1 ++ rules.drop (p.1 + 1)) p.2.toUInt8 = true := by
  decide +kernel

theorem mem_rules {r : Rule} (h : r ∈ rules) :
    r ∈ otherRules ∨ r = .word Pattern.envar .envar := by
  have hsplit : rules = rules.take 15 ++ .word Pattern.envar .envar :: rules.drop 16 := rfl
  rw [hsplit, List.mem_append, List.mem_cons] at h
  rw [otherRules, List.mem_append]
  tauto

/-- A byte of the key of an `ENVAR`. -/
def keyByte (c : UInt8) : Bool := isAlpha c || isDigit c

theorem mem_envar {w : Str} : w ∈ Pattern.envar.lang ↔
    ∃ a key val, w = a :: key ++ 61 :: val ∧ isAlpha a = true ∧ (∀ c ∈ key, keyByte c = true) ∧
      val ≠ [] ∧ ∀ c ∈ val, c ≠ 59 ∧ c ≠ 10 := by
  have hval : ∀ c : UInt8, (!oneOf [';', '\n'] c) = true ↔ c ≠ 59 ∧ c ≠ 10 := by
    intro c
    have h59 : ';'.toUInt8 = 59 := rfl
    have h10 : '\n'.toUInt8 = 10 := rfl
    simp [oneOf, bytes, h59, h10]
  rw [Pattern.envar, mem_lang_cons_cls]
  constructor
  · rintro ⟨a, v, rfl, ha, hv⟩
    obtain ⟨key, hkey, x, hx, rfl⟩ := mem_lang_seq.mp hv
    obtain ⟨e, val, rfl, he, hvals⟩ := mem_lang_cons_cls.mp hx
    obtain rfl : e = '='.toUInt8 := by simpa [oneOf, bytes] using he
    obtain ⟨hne, hall⟩ := mem_lang_plus_cls.mp hvals
    exact ⟨a, key, val, rfl, ha, mem_lang_star_cls.mp hkey, hne,
      fun c hc => (hval c).mp (hall c hc)⟩
  · rintro ⟨a, key, val, rfl, ha, hkey, hne, hall⟩
    refine ⟨a, key ++ 61 :: val, rfl, ha, mem_lang_seq.mpr ⟨key, mem_lang_star_cls.mpr hkey,
      61 :: val, mem_lang_cons_cls.mpr ⟨61, val, rfl, by decide, ?_⟩, rfl⟩⟩
    exact mem_lang_plus_cls.mpr ⟨hne, fun c hc => (hval c).mpr (hall c hc)⟩

/-- An `ENVAR` goes on to the end of the line or of the option. -/
theorem envar_concat {w : Str} {c : UInt8} (h : w ∈ Pattern.envar.lang) (hc : c ≠ 59 ∧ c ≠ 10) :
    w ++ [c] ∈ Pattern.envar.lang := by
  obtain ⟨a, key, val, rfl, halpha, hkey, hne, hval⟩ := mem_envar.mp h
  refine mem_envar.mpr ⟨a, key, val ++ [c], by simp, halpha, hkey, by simp, fun e he => ?_⟩
  rcases List.mem_append.mp he with he | he
  · exact hval e he
  · rw [List.mem_singleton.mp he]
    exact hc

/-- A text is cut in one way at a byte that neither part before it has. -/
theorem append_cons_unique {u u' v v' : Str} {a b : UInt8} (hu : b ∉ u) (hu' : a ∉ u')
    (h : u ++ a :: v = u' ++ b :: v') : a = b ∧ v = v' := by
  rcases List.append_eq_append_iff.mp h with ⟨k, rfl, hk⟩ | ⟨k, rfl, hk⟩
  · cases k with
    | nil => exact List.cons.inj hk
    | cons d k =>
        obtain ⟨rfl, -⟩ := List.cons.inj hk
        exact absurd (List.mem_append_right u List.mem_cons_self) hu'
  · cases k with
    | nil => exact (List.cons.inj hk).imp Eq.symm Eq.symm
    | cons d k =>
        obtain ⟨rfl, -⟩ := List.cons.inj hk
        exact absurd (List.mem_append_right u' List.mem_cons_self) hu

/-- An `ENVAR` has nothing but letters and digits before its first `=`. -/
theorem not_envar {u z : Str} {b : UInt8} (hu : 61 ∉ u) (hb : keyByte b = false) (h61 : b ≠ 61) :
    u ++ b :: z ∉ Pattern.envar.lang := by
  intro h
  obtain ⟨a, key, val, heq, halpha, hkey, -⟩ := mem_envar.mp h
  have hnot : b ∉ a :: key := by
    intro hmem
    rcases List.mem_cons.mp hmem with rfl | hmem
    · rw [keyByte, halpha] at hb
      cases hb
    · rw [hkey b hmem] at hb
      cases hb
  exact h61 (append_cons_unique hu hnot heq).1

/-- An `ALPHAWORD` has no `=`, so a blank after it ends every match. -/
theorem longest_alpha {w s : Str} {b : UInt8} (hw : w ∈ Pattern.alphaWord.lang)
    (hb : endsWord b = true) : Longest w (b :: s) := by
  have heq : 61 ∉ w := fun h => by
    have := uses_of_mem hw h
    exact absurd this (by decide)
  obtain ⟨a, u, rfl, ha, -⟩ := mem_lang_cons_cls.mp hw
  obtain ⟨-, hstop, -, hother, -⟩ := alpha_rules ha
  by_cases h59 : b = 59
  · subst h59
    exact longest_of_stops hstop
  have hblank : b = 32 ∨ b = 9 := by
    rcases endsWord_iff.mp hb with hb | hb | hb
    · exact Or.inl hb
    · exact Or.inr hb
    · exact absurd hb h59
  intro r hr n hn _
  rcases mem_rules hr with hr | rfl
  · refine not_mem_of_stop ((hother r hr).imp_right fun huse => ?_) hn
    rcases hblank with rfl | rfl
    · exact huse.1
    · exact huse.2
  · obtain ⟨k, hk⟩ := take_past (a := a) (b := b) (u := u) (v := s) hn
    rw [hk, ← List.cons_append]
    rcases hblank with rfl | rfl
    · exact not_envar heq (by decide) (by decide)
    · exact not_envar heq (by decide) (by decide)

/-! ## The words of a configuration -/

/-- The words that are tokens of their own. -/
def keywords : List (Str × Token) := [
  (bytes ['t', 'a', 's', 'k'], .tokenTask),
  (bytes ['n', 'a', 'm', 'e'], .tokenName),
  (bytes ['p', 'a', 't', 'h'], .tokenPath),
  (bytes ['a', 'r', 'g', 's'], .tokenArgs),
  (bytes ['e', 'n', 'v'], .tokenEnv),
  (bytes ['d', 'i', 'r'], .tokenDir)]

def isKeyword (w : Str) : Bool := (keywords.map Prod.fst).contains w

/-- The keywords and the punctuation are matched by no rule before their own. -/
theorem fixed_rules :
    (∀ k ∈ keywords, k.1 ∈ Pattern.alphaWord.lang) ∧
    ∀ p ∈ [(0, ['{']), (1, ['}']), (2, ['t', 'a', 's', 'k']), (3, ['n', 'a', 'm', 'e']),
        (4, ['p', 'a', 't', 'h']), (5, ['a', 'r', 'g', 's']), (6, ['e', 'n', 'v']),
        (7, ['d', 'i', 'r']), (8, ['"']), (9, [';']), (16, ['\n'])],
      ∀ q ∈ rules.take p.1, bytes p.2 ∉ q.pattern.lang := by
  decide +kernel

section
variable {bol : Bool} {w s : Str} {t : Token} {b : UInt8}

/-- A word with a rule of its own. -/
theorem tokensFrom_fixed (i : Nat) (cs : List Char) (hi : rules[i]? = some (.fixed cs t))
    (hne : bytes cs ≠ []) (hpre : ∀ q ∈ rules.take i, bytes cs ∉ q.pattern.lang)
    (hlong : Longest (bytes cs) s) :
    tokensFrom bol (bytes cs ++ s) = t :: tokensFrom (endsLine (bytes cs)) s :=
  tokensFrom_word i hi rfl rfl (mem_lang_lit.mpr rfl) hne hpre hlong

theorem tokensFrom_keyword (h : (w, t) ∈ keywords) (hb : endsWord b = true) :
    tokensFrom bol (w ++ b :: s) = t :: tokensFrom false (b :: s) := by
  have hlong : Longest w (b :: s) := longest_alpha (fixed_rules.1 (w, t) h) hb
  have hpre := fixed_rules.2
  simp only [keywords, List.mem_cons, Prod.mk.injEq, List.not_mem_nil, or_false] at h
  rcases h with ⟨rfl, rfl⟩ | ⟨rfl, rfl⟩ | ⟨rfl, rfl⟩ | ⟨rfl, rfl⟩ | ⟨rfl, rfl⟩ | ⟨rfl, rfl⟩
  · exact tokensFrom_fixed 2 _ rfl (by decide) (hpre (2, _) (by simp)) hlong
  · exact tokensFrom_fixed 3 _ rfl (by decide) (hpre (3, _) (by simp)) hlong
  · exact tokensFrom_fixed 4 _ rfl (by decide) (hpre (4, _) (by simp)) hlong
  · exact tokensFrom_fixed 5 _ rfl (by decide) (hpre (5, _) (by simp)) hlong
  · exact tokensFrom_fixed 6 _ rfl (by decide) (hpre (6, _) (by simp)) hlong
  · exact tokensFrom_fixed 7 _ rfl (by decide) (hpre (7, _) (by simp)) hlong

/-- Nothing is matched beyond such a byte. -/
theorem longest_byte {i : Nat} {c : Char} {r : Rule} (hi : rules[i]? = some r)
    (hr : r.pattern = lit (bytes [c]))
    (h : noneStart (rules.take i ++ rules.drop (i + 1)) c.toUInt8 = true) :
    Longest (bytes [c]) s := by
  intro q hq n hn hle hmem
  obtain ⟨n, rfl⟩ := Nat.exists_eq_succ_of_ne_zero (Nat.ne_zero_of_lt hn)
  rw [rules_split hi, List.mem_append, List.mem_cons, or_left_comm, ← List.mem_append] at hq
  rcases hq with rfl | hq
  · rw [hr] at hmem
    have hlit : (bytes [c] ++ s).take (n + 1) = bytes [c] := mem_lang_lit.mp hmem
    have hlen := congrArg List.length hlit
    rw [List.length_take_of_le hle] at hlen
    exact absurd hlen (Nat.ne_of_gt hn)
  · exact not_mem_of_canStart h q hq hmem

/-- The punctuation. -/
theorem tokensFrom_punct
    (h : (b, t) ∈ [((123 : UInt8), Token.openBrace), (125, .endBrace), (34, .quote),
      (59, .semicolon)]) :
    tokensFrom bol (b :: s) = t :: tokensFrom false s := by
  have hpre := fixed_rules.2
  simp only [List.mem_cons, Prod.mk.injEq, List.not_mem_nil, or_false] at h
  rcases h with ⟨rfl, rfl⟩ | ⟨rfl, rfl⟩ | ⟨rfl, rfl⟩ | ⟨rfl, rfl⟩
  · exact tokensFrom_fixed 0 ['{'] rfl (by decide) (hpre (0, _) (by simp))
      (longest_byte rfl rfl (byte_rules (0, '{') (by simp)))
  · exact tokensFrom_fixed 1 ['}'] rfl (by decide) (hpre (1, _) (by simp))
      (longest_byte rfl rfl (byte_rules (1, '}') (by simp)))
  · exact tokensFrom_fixed 8 ['"'] rfl (by decide) (hpre (8, _) (by simp))
      (longest_byte rfl rfl (byte_rules (8, '"') (by simp)))
  · exact tokensFrom_fixed 9 [';'] rfl (by decide) (hpre (9, _) (by simp))
      (longest_byte rfl rfl (byte_rules (9, ';') (by simp)))

theorem longest_newline : Longest [10] s :=
  longest_byte rfl rfl (byte_rules (16, '\n') (by simp))

theorem tokensFrom_newline : tokensFrom bol (10 :: s) = tokensFrom true s :=
  tokensFrom_word (w := [10]) 16 rfl rfl rfl (mem_lang_lit.mpr rfl) (by decide)
    (fixed_rules.2 (16, ['\n']) (by simp)) longest_newline

theorem tokensFrom_blanks (bol : Bool) (hw : ∀ c ∈ w, oneOf [' ', '\t'] c = true)
    (hb : oneOf [' ', '\t'] b = false) :
    ∃ bol', tokensFrom bol (w ++ b :: s) = tokensFrom bol' (b :: s) := by
  cases w with
  | nil => exact ⟨bol, rfl⟩
  | cons a u =>
      have ha := hw a List.mem_cons_self
      obtain ⟨-, -, -, -, h32, h9⟩ := punct_rules
      refine ⟨_, tokensFrom_word 17 rfl rfl rfl (mem_lang_plus_cls.mpr ⟨by simp, hw⟩) (by simp)
        (not_mem_of_canStart ?_) (longest_of_stops (stops_blank ha hb))⟩
      obtain rfl | rfl : a = ' '.toUInt8 ∨ a = '\t'.toUInt8 := by simpa [oneOf, bytes] using ha
      · exact h32
      · exact h9

/-! ## Values -/

theorem strdup_eq (h : 0 ∉ w) : strdup w = w := by
  induction w with
  | nil => rfl
  | cons c w ih =>
      simp only [List.mem_cons, not_or] at h
      obtain ⟨hc, hw⟩ := h
      rw [strdup, List.takeWhile_cons_of_pos (by simpa using Ne.symm hc)]
      exact congrArg _ (ih hw)

/-- A word without a NUL reaches the parser as it is. -/
theorem tokensFrom_value (i : Nat) {p : Regex UInt8} {t : Str → Token}
    (hi : rules[i]? = some (.word p t)) (hw : w ∈ p.lang) (hne : w ≠ []) (h0 : 0 ∉ w)
    (hpre : ∀ q ∈ rules.take i, w ∉ q.pattern.lang) (hlong : Longest w s) :
    tokensFrom bol (w ++ s) = t w :: tokensFrom (endsLine w) s := by
  rw [tokensFrom_word i hi rfl rfl hw hne hpre hlong]
  simp [Rule.word, strdup_eq h0]

/-- The rules of the keywords. -/
theorem isKeyword_iff : isKeyword w = true ↔ ∃ q ∈ (rules.drop 2).take 6, w ∈ q.pattern.lang := by
  have hkw : (rules.drop 2).take 6 =
      keywords.map fun k => { pattern := lit k.1, action := fun _ => some k.2 } := rfl
  rw [hkw, isKeyword, List.contains_iff_mem]
  simp only [List.mem_map, exists_exists_and_eq_and, mem_lang_lit]
  exact exists_congr fun k => and_congr_right fun _ => eq_comm

/-- The rules before that of `ALPHAWORD` match the keywords only. -/
theorem not_before_alphaWord (hw : w ∈ Pattern.alphaWord.lang) (hk : isKeyword w = false) :
    ∀ q ∈ rules.take 12, w ∉ q.pattern.lang := by
  obtain ⟨a, u, rfl, ha, -⟩ := mem_lang_cons_cls.mp hw
  intro q hq
  have hq : q ∈ rules.take 2 ++ (rules.drop 8).take 4 ∨ q ∈ (rules.drop 2).take 6 := by
    have hsplit : rules.take 12 =
        rules.take 2 ++ ((rules.drop 2).take 6 ++ (rules.drop 8).take 4) := rfl
    rw [hsplit] at hq
    simp only [List.mem_append] at hq ⊢
    tauto
  rcases hq with hq | hq
  · exact not_mem_of_canStart (alpha_rules ha).2.2.1 q hq
  · intro hmem
    rw [isKeyword_iff.mpr ⟨q, hq, hmem⟩] at hk
    cases hk

/-- An `ALPHAWORD` that is no token of its own. -/
theorem tokensFrom_alphaWord (hw : w ∈ Pattern.alphaWord.lang) (hk : isKeyword w = false)
    (h0 : 0 ∉ w) (hb : endsWord b = true) :
    tokensFrom bol (w ++ b :: s) = .alphaWord w :: tokensFrom (endsLine w) (b :: s) := by
  have hlong : Longest w (b :: s) := longest_alpha hw hb
  have hne : w ≠ [] := by
    rintro rfl
    exact absurd (nil_mem_lang.mp hw) (by decide)
  exact tokensFrom_value 12 rfl hw hne h0 (not_before_alphaWord hw hk) hlong

theorem tokensFrom_path (hw : w ∈ Pattern.path.lang) (h0 : 0 ∉ w) :
    tokensFrom bol (w ++ 59 :: s) = .path w :: tokensFrom (endsLine w) (59 :: s) := by
  obtain ⟨a, u, rfl, ha, -⟩ := mem_lang_cons_cls.mp hw
  obtain rfl : a = '/'.toUInt8 := by simpa [oneOf, bytes] using ha
  obtain ⟨hstop, -, hpre, -⟩ := punct_rules
  exact tokensFrom_value 13 rfl hw (by simp) h0 (not_mem_of_canStart hpre) (longest_of_stops hstop)

theorem tokensFrom_argKey (hw : w ∈ Pattern.argKey.lang) (h0 : 0 ∉ w) (hb : endsWord b = true) :
    tokensFrom bol (w ++ b :: s) = .argKey w :: tokensFrom (endsLine w) (b :: s) := by
  obtain ⟨a, u, rfl, ha, -⟩ := mem_lang_cons_cls.mp hw
  obtain rfl : a = '-'.toUInt8 := by simpa [oneOf, bytes] using ha
  obtain ⟨-, hstops, -, hpre, -⟩ := punct_rules
  exact tokensFrom_value 14 rfl hw (by simp) h0 (not_mem_of_canStart hpre)
    (longest_of_stops (stops_of_endsWord hstops hb))

theorem tokensFrom_envar (hw : w ∈ Pattern.envar.lang) (h0 : 0 ∉ w) :
    tokensFrom bol (w ++ 59 :: s) = .envar w :: tokensFrom (endsLine w) (59 :: s) := by
  obtain ⟨a, u, rfl, ha, hu⟩ := mem_lang_cons_cls.mp hw
  have heq : 61 ∈ a :: u := by
    obtain ⟨key, -, v, hv, rfl⟩ := mem_lang_seq.mp hu
    obtain ⟨e, val, rfl, he, -⟩ := mem_lang_cons_cls.mp hv
    obtain rfl : e = '='.toUInt8 := by simpa [oneOf, bytes] using he
    simp
    exact Or.inr (Or.inr (Or.inl rfl))
  have hpre : ∀ q ∈ rules.take 15, a :: u ∉ q.pattern.lang := by
    intro q hq hmem
    have := (alpha_rules ha).2.2.2.2 q hq
    rw [canStart_of_mem hmem, uses_of_mem hmem heq] at this
    rcases this with this | this <;> cases this
  exact tokensFrom_value 15 rfl hw (by simp) h0 hpre (longest_of_stops (alpha_rules ha).2.1)

/-- The token of a word that begins with digits. -/
def digitsToken (w : Str) : Token :=
  if Pattern.number.accepts w then .number w else .alnumWord w

theorem tokensFrom_alnumWord (hw : w ∈ Pattern.alnumWord.lang) (h0 : 0 ∉ w)
    (hb : endsWord b = true) :
    tokensFrom bol (w ++ b :: s) = digitsToken w :: tokensFrom (endsLine w) (b :: s) := by
  obtain ⟨a, u, rfl, ha⟩ : ∃ a u, w = a :: u ∧ isDigit a = true := by
    obtain ⟨d, hd, v, -, rfl⟩ := mem_lang_seq.mp hw
    obtain ⟨a, x, rfl, ha, -⟩ := mem_lang_cons_cls.mp hd
    exact ⟨a, x ++ v, rfl, ha⟩
  obtain ⟨-, hstops, hnone⟩ := digit_rules ha
  have hstop : stops a b = true := stops_of_endsWord hstops hb
  have hpre : ∀ q ∈ rules.take 10, a :: u ∉ q.pattern.lang := not_mem_of_canStart hnone
  rw [digitsToken]
  split
  · rename_i hn
    exact tokensFrom_value 10 rfl (accepts_iff.mp hn) (by simp) h0 hpre (longest_of_stops hstop)
  · rename_i hn
    have hpre' : ∀ q ∈ rules.take 11, a :: u ∉ q.pattern.lang := by
      have hsplit : rules.take 11 = rules.take 10 ++ [.word Pattern.number .number] := rfl
      intro q hq
      rw [hsplit, List.mem_append, List.mem_singleton] at hq
      rcases hq with hq | rfl
      · exact hpre q hq
      · exact fun hmem => hn (accepts_iff.mpr hmem)
    exact tokensFrom_value 11 rfl hw (by simp) h0 hpre' (longest_of_stops hstop)

/-- A `NUMBER` is an `ALNUMWORD` too. -/
theorem number_alnumWord (hw : w ∈ Pattern.number.lang) : w ∈ Pattern.alnumWord.lang :=
  mem_lang_seq.mpr ⟨w, hw, [], nil_mem_lang.mpr rfl, List.append_nil w⟩

end

end Bitzer
