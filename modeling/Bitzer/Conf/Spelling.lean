import Bitzer.Conf.Ignored

/-!
# The spelling of a line

What may be written on a line for no byte of it to be lost, byte by byte and
without the scanner: words of ten forms, each with the bytes that may not follow
it. A line that does not begin with `#` and is no sequence of such words loses a
byte, and only such a line does.
-/

namespace Bitzer

open Lib Lib.Regex

/-! ## Words -/

/-- A byte of an `ALPHAWORD` after its first letter. -/
def alphaByte (c : UInt8) : Bool := isAlpha c || isDigit c || oneOf ['.', '/', '_', '-'] c

/-- A byte of an `ALNUMWORD` after its digits. -/
def alnumByte (c : UInt8) : Bool := isAlpha c || oneOf ['_', '-'] c

/-- A byte of the first part of a `PATH`, which has no `_`. -/
def partByte (c : UInt8) : Bool := isAlpha c || isDigit c || oneOf ['-', '.', '+'] c

/-- A byte of a `PATH` after its second `/`. -/
def pathByte (c : UInt8) : Bool := partByte c || oneOf ['_', '/'] c

/-- A byte of the value of an `ENVAR`. -/
def valByte (c : UInt8) : Bool := !oneOf [';', '\n'] c

/-- The words of a line, each with the bytes that may not follow it. -/
inductive Spelling : Str → (UInt8 → Bool) → Prop where
  | punct {c : UInt8} : c ∈ bytes ['{', '}', '"', ';'] → Spelling [c] fun _ => false
  | blanks {w : Str} : w ≠ [] → (∀ c ∈ w, oneOf [' ', '\t'] c = true) →
      Spelling w (oneOf [' ', '\t'])
  | alphaWord {a : UInt8} {u : Str} : isAlpha a = true → (∀ c ∈ u, alphaByte c = true) →
      Spelling (a :: u) fun c => alphaByte c || oneOf ['='] c
  | envar {a : UInt8} {key val : Str} : isAlpha a = true → (∀ c ∈ key, keyByte c = true) →
      val ≠ [] → (∀ c ∈ val, valByte c = true) → Spelling (a :: key ++ 61 :: val) valByte
  | number {d : Str} : d ≠ [] → (∀ c ∈ d, isDigit c = true) →
      Spelling d fun c => isDigit c || alnumByte c
  | alnumWord {d u : Str} : d ≠ [] → (∀ c ∈ d, isDigit c = true) → u ≠ [] →
      (∀ c ∈ u, alnumByte c = true) → Spelling (d ++ u) alnumByte
  | path {u : Str} : (∀ c ∈ u, partByte c = true) →
      Spelling (47 :: u) fun c => partByte c || oneOf ['/'] c
  | longPath {u x : Str} : (∀ c ∈ u, partByte c = true) → (∀ c ∈ x, pathByte c = true) →
      Spelling (47 :: u ++ 47 :: x) pathByte
  | argKey {u : Str} : u ≠ [] → (∀ c ∈ u, argByte c = true) → Spelling (45 :: u) argByte
  | longKey {u : Str} : u ≠ [] → (∀ c ∈ u, argByte c = true) → Spelling (45 :: 45 :: u) argByte

/-- The text is empty or begins with another byte than these. -/
def Ended (p : UInt8 → Bool) (v : Str) : Prop := ∀ c ∈ v.head?, p c = false

/-- A sequence of words, each followed by nothing or by a byte that may follow
it. -/
inductive Legible : Str → Prop where
  | nil : Legible []
  | word {w v : Str} {p : UInt8 → Bool} : Spelling w p → Ended p v → Legible v → Legible (w ++ v)

/-- `l` is a line of the text, and `u` is what stands before it. -/
def LineAt (s u l : Str) : Prop :=
  (u = [] ∨ endsLine u = true) ∧ 10 ∉ l ∧ (s = u ++ l ∨ ∃ v, s = u ++ (l ++ 10 :: v))

/-! ## The words that the rules match -/

section
variable {a c : UInt8} {p : UInt8 → Bool} {q : Rule} {u v w z : Str}

theorem mem_alphaWord : a :: u ∈ Pattern.alphaWord.lang ↔
    isAlpha a = true ∧ ∀ c ∈ u, alphaByte c = true := by
  rw [Pattern.alphaWord, mem_lang_cons_cls]
  constructor
  · rintro ⟨b, x, hx, hb, hall⟩
    obtain ⟨rfl, rfl⟩ := List.cons.inj hx
    exact ⟨hb, mem_lang_star_cls.mp hall⟩
  · rintro ⟨ha, hall⟩
    exact ⟨a, u, rfl, ha, mem_lang_star_cls.mpr hall⟩

theorem mem_alnumWord : w ∈ Pattern.alnumWord.lang ↔ ∃ d x, w = d ++ x ∧ d ≠ [] ∧
    (∀ c ∈ d, isDigit c = true) ∧ ∀ c ∈ x, alnumByte c = true := by
  rw [Pattern.alnumWord, mem_lang_seq]
  constructor
  · rintro ⟨d, hd, x, hx, rfl⟩
    obtain ⟨hne, hall⟩ := mem_lang_plus_cls.mp hd
    exact ⟨d, x, rfl, hne, hall, mem_lang_star_cls.mp hx⟩
  · rintro ⟨d, x, rfl, hne, hall, hx⟩
    exact ⟨d, mem_lang_plus_cls.mpr ⟨hne, hall⟩, x, mem_lang_star_cls.mpr hx, rfl⟩

/-- A further part of a `PATH`. -/
def nextPart : Regex UInt8 :=
  seq (cls (oneOf ['/']))
    (star (cls fun c => isAlpha c || isDigit c || oneOf ['-', '.', '_', '+'] c))

theorem oneOf_subset {cs ds : List Char} (h : cs ⊆ ds) (hc : oneOf cs c = true) :
    oneOf ds c = true := by
  rw [oneOf, List.contains_iff_mem] at hc ⊢
  exact List.map_subset _ h hc

theorem slash_iff : oneOf ['/'] c = true ↔ c = 47 := by
  rw [oneOf, List.contains_iff_mem]
  exact List.mem_singleton

theorem nextPart_bytes (c : UInt8) :
    nextPart.uses c = pathByte c ∧ nextPart.canStart c = oneOf ['/'] c := by
  have h := forall_byte (p := fun c => nextPart.uses c == pathByte c &&
    nextPart.canStart c == oneOf ['/'] c) (by decide +kernel) c
  simpa only [Bool.and_eq_true, beq_iff_eq] using h

/-- All parts of a `PATH` but the first one. -/
theorem mem_nextParts :
    a :: u ∈ (star nextPart).lang ↔ a = 47 ∧ ∀ c ∈ u, pathByte c = true := by
  constructor
  · intro h
    have hstart : nextPart.canStart a = true := canStart_of_mem (r := star nextPart) h
    rw [(nextPart_bytes a).2] at hstart
    refine ⟨slash_iff.mp hstart, fun c hc => ?_⟩
    rw [← (nextPart_bytes c).1]
    exact uses_of_mem (r := star nextPart) h (List.mem_cons_of_mem a hc)
  · rintro ⟨rfl, hall⟩
    induction u with
    | nil => exact cons_mem_star.mpr ⟨[], [], by decide, Language.nil_mem_kstar _, rfl⟩
    | cons c u ih =>
        obtain ⟨hc, hu⟩ := List.forall_mem_cons.mp hall
        obtain ⟨y, z, hy, hz, rfl⟩ := cons_mem_star.mp (ih hu)
        by_cases h47 : c = 47
        · -- one more part
          subst h47
          exact cons_mem_star.mpr ⟨[], 47 :: (y ++ z), by decide, ih hu, rfl⟩
        · -- one more byte of this part
          obtain ⟨b, x, hx, hb, hmem⟩ := mem_lang_cons_cls.mp hy
          obtain ⟨rfl, rfl⟩ := List.cons.inj hx
          refine cons_mem_star.mpr
            ⟨c :: y, z, mem_lang_cons_cls.mpr ⟨47, c :: y, rfl, hb, ?_⟩, hz, rfl⟩
          refine mem_lang_star_cls.mpr (List.forall_mem_cons.mpr ⟨?_, mem_lang_star_cls.mp hmem⟩)
          rw [← (nextPart_bytes c).1, nextPart, uses, Bool.or_eq_true] at hc
          exact hc.resolve_left fun h => h47 (slash_iff.mp h)

theorem mem_path : a :: w ∈ Pattern.path.lang ↔ a = 47 ∧
    ((∀ c ∈ w, partByte c = true) ∨ ∃ u x, w = u ++ 47 :: x ∧
      (∀ c ∈ u, partByte c = true) ∧ ∀ c ∈ x, pathByte c = true) := by
  rw [Pattern.path, mem_lang_cons_cls]
  constructor
  · rintro ⟨b, x, hx, hb, hmem⟩
    obtain ⟨rfl, rfl⟩ := List.cons.inj hx
    refine ⟨slash_iff.mp hb, ?_⟩
    obtain ⟨u, hu, v, hv, rfl⟩ := mem_lang_seq.mp hmem
    cases v with
    | nil =>
        rw [List.append_nil]
        exact Or.inl (mem_lang_star_cls.mp hu)
    | cons b x =>
        obtain ⟨rfl, hall⟩ := mem_nextParts.mp hv
        exact Or.inr ⟨u, x, rfl, mem_lang_star_cls.mp hu, hall⟩
  · rintro ⟨ha, hw⟩
    refine ⟨a, w, rfl, slash_iff.mpr ha, mem_lang_seq.mpr ?_⟩
    rcases hw with hw | ⟨u, x, rfl, hu, hx⟩
    · exact ⟨w, mem_lang_star_cls.mpr hw, [], Language.nil_mem_kstar _, List.append_nil w⟩
    · exact ⟨u, mem_lang_star_cls.mpr hu, 47 :: x, mem_nextParts.mpr ⟨rfl, hx⟩, rfl⟩

/-- What a word of the rules can be, by the byte that it begins with. -/
inductive Starts (a : UInt8) (u : Str) : Prop where
  | letter (ha : isAlpha a = true)
      (h : a :: u ∈ Pattern.alphaWord.lang ∨ a :: u ∈ Pattern.envar.lang)
  | digit (ha : isDigit a = true) (h : a :: u ∈ Pattern.alnumWord.lang)
  | slash (ha : oneOf ['/'] a = true) (h : a :: u ∈ Pattern.path.lang)
  | dash (ha : oneOf ['-'] a = true) (h : a :: u ∈ Pattern.argKey.lang)
  | blank (ha : oneOf [' ', '\t'] a = true) (h : ∀ c ∈ u, oneOf [' ', '\t'] c = true)
  | single (ha : oneOf ['{', '}', '"', ';', '\n'] a = true) (h : u = [])

theorem rule_starts (hq : q ∈ rules.take 18) (h : a :: u ∈ q.pattern.lang) : Starts a u := by
  have single : ∀ {b : UInt8}, oneOf ['{', '}', '"', ';', '\n'] b = true → a :: u = [b] →
      Starts a u := by
    intro b hb hab
    obtain ⟨rfl, rfl⟩ := List.cons.inj hab
    exact .single hb rfl
  have letter : a :: u ∈ Pattern.alphaWord.lang → Starts a u :=
    fun hw => .letter (mem_alphaWord.mp hw).1 (Or.inl hw)
  have keyword : ∀ {w : Str}, w ∈ Pattern.alphaWord.lang → a :: u = w → Starts a u := by
    intro w hw hau
    exact letter (hau ▸ hw)
  have digit : a :: u ∈ Pattern.alnumWord.lang → Starts a u := by
    intro hw
    obtain ⟨d, x, hdx, hne, hd, -⟩ := mem_alnumWord.mp hw
    obtain ⟨b, d, rfl⟩ := List.exists_cons_of_ne_nil hne
    obtain ⟨rfl, -⟩ := List.cons.inj hdx
    exact .digit (hd a List.mem_cons_self) hw
  simp only [rules, List.take, List.mem_cons, List.not_mem_nil, or_false] at hq
  rcases hq with rfl | rfl | rfl | rfl | rfl | rfl | rfl | rfl | rfl | rfl | rfl | rfl | rfl | rfl |
    rfl | rfl | rfl | rfl
  · exact single (by decide) (mem_lang_lit.mp h)
  · exact single (by decide) (mem_lang_lit.mp h)
  · exact keyword (by decide) (mem_lang_lit.mp h)
  · exact keyword (by decide) (mem_lang_lit.mp h)
  · exact keyword (by decide) (mem_lang_lit.mp h)
  · exact keyword (by decide) (mem_lang_lit.mp h)
  · exact keyword (by decide) (mem_lang_lit.mp h)
  · exact keyword (by decide) (mem_lang_lit.mp h)
  · exact single (by decide) (mem_lang_lit.mp h)
  · exact single (by decide) (mem_lang_lit.mp h)
  · exact digit (number_alnumWord h)
  · exact digit h
  · exact letter h
  · exact .slash (slash_iff.mpr (mem_path.mp h).1) h
  · obtain ⟨b, x, hx, hb, -⟩ := mem_lang_cons_cls.mp h
    obtain rfl : a = b := (List.cons.inj hx).1
    exact .dash hb h
  · obtain ⟨b, key, val, hw, hb, -⟩ := mem_envar.mp h
    obtain rfl : a = b := (List.cons.inj hw).1
    exact .letter hb (Or.inr h)
  · exact single (by decide) (mem_lang_lit.mp h)
  · obtain ⟨ha, hu⟩ := List.forall_mem_cons.mp (mem_lang_plus_cls.mp h).2
    exact .blank ha hu

theorem Starts.of_alpha (h : Starts a u) (ha : isAlpha a = true) :
    a :: u ∈ Pattern.alphaWord.lang ∨ a :: u ∈ Pattern.envar.lang := by
  have hkind := forall_byte (p := fun a => !isAlpha a || !(isDigit a ||
    oneOf ['/', '-', ' ', '\t', '{', '}', '"', ';', '\n'] a)) (by decide +kernel) a
  rw [ha, Bool.not_true, Bool.false_or, Bool.not_eq_true', Bool.or_eq_false_iff] at hkind
  cases h with
  | letter _ h => exact h
  | digit hd _ => exact (Bool.eq_false_iff.mp hkind.1 hd).elim
  | slash hb _ | dash hb _ | blank hb _ | single hb _ =>
      exact (Bool.eq_false_iff.mp hkind.2 (oneOf_subset (by decide) hb)).elim

theorem Starts.of_digit (h : Starts a u) (ha : isDigit a = true) :
    a :: u ∈ Pattern.alnumWord.lang := by
  have hkind := forall_byte (p := fun a => !isDigit a || !(isAlpha a ||
    oneOf ['/', '-', ' ', '\t', '{', '}', '"', ';', '\n'] a)) (by decide +kernel) a
  rw [ha, Bool.not_true, Bool.false_or, Bool.not_eq_true', Bool.or_eq_false_iff] at hkind
  cases h with
  | digit _ h => exact h
  | letter hl _ => exact (Bool.eq_false_iff.mp hkind.1 hl).elim
  | slash hb _ | dash hb _ | blank hb _ | single hb _ =>
      exact (Bool.eq_false_iff.mp hkind.2 (oneOf_subset (by decide) hb)).elim

theorem Starts.of_blank (h : Starts a u) (ha : a ∈ bytes [' ', '\t']) :
    ∀ c ∈ u, oneOf [' ', '\t'] c = true := by
  have hother : ∀ b ∈ bytes [' ', '\t'], isAlpha b = false ∧ isDigit b = false ∧
      oneOf ['/', '-', '{', '}', '"', ';', '\n'] b = false := by decide +kernel
  obtain ⟨halpha, hdigit, hb⟩ := hother a ha
  cases h with
  | blank _ h => exact h
  | letter hl _ => exact (Bool.eq_false_iff.mp halpha hl).elim
  | digit hd _ => exact (Bool.eq_false_iff.mp hdigit hd).elim
  | slash hs _ | dash hs _ | single hs _ =>
      exact (Bool.eq_false_iff.mp hb (oneOf_subset (by decide) hs)).elim

theorem Starts.of_slash (h : Starts 47 u) : 47 :: u ∈ Pattern.path.lang := by
  cases h with
  | slash _ h => exact h
  | letter hb _ | digit hb _ | dash hb _ | blank hb _ | single hb _ => exact absurd hb (by decide)

theorem Starts.of_dash (h : Starts 45 u) : 45 :: u ∈ Pattern.argKey.lang := by
  cases h with
  | dash _ h => exact h
  | letter hb _ | digit hb _ | slash hb _ | blank hb _ | single hb _ => exact absurd hb (by decide)

theorem Starts.of_punct (h : Starts a u) (ha : a ∈ bytes ['{', '}', '"', ';']) : u = [] := by
  have hother : ∀ b ∈ bytes ['{', '}', '"', ';'], isAlpha b = false ∧ isDigit b = false ∧
      oneOf ['/', '-', ' ', '\t'] b = false := by decide +kernel
  obtain ⟨halpha, hdigit, hb⟩ := hother a ha
  cases h with
  | single _ h => exact h
  | letter hl _ => exact (Bool.eq_false_iff.mp halpha hl).elim
  | digit hd _ => exact (Bool.eq_false_iff.mp hdigit hd).elim
  | slash hs _ | dash hs _ | blank hs _ =>
      exact (Bool.eq_false_iff.mp hb (oneOf_subset (by decide) hs)).elim

theorem valByte_iff : valByte c = true ↔ c ≠ 59 ∧ c ≠ 10 := by
  have h59 : ';'.toUInt8 = 59 := rfl
  have h10 : '\n'.toUInt8 = 10 := rfl
  simp [valByte, oneOf, bytes, h59, h10]

/-! ## Words are as long as can be -/

theorem mem_take_rules {i : Nat} (hi : rules[i]? = some q) (hlt : i < 18) : q ∈ rules.take 18 := by
  rw [← List.getElem?_take_of_lt hlt] at hi
  exact List.mem_of_getElem? hi

/-- A word is matched by a rule. -/
theorem Spelling.matched (h : Spelling w p) : ∃ r ∈ rules.take 18, w ∈ r.pattern.lang := by
  have rule : ∀ i r, rules[i]? = some r → i < 18 → w ∈ r.pattern.lang →
      ∃ r ∈ rules.take 18, w ∈ r.pattern.lang :=
    fun i r hi hlt hw => ⟨r, mem_take_rules hi hlt, hw⟩
  cases h with
  | punct hc =>
      simp only [bytes, List.map_cons, List.map_nil, List.mem_cons, List.not_mem_nil,
        or_false] at hc
      rcases hc with rfl | rfl | rfl | rfl
      · exact rule 0 _ rfl (by decide) (by decide)
      · exact rule 1 _ rfl (by decide) (by decide)
      · exact rule 8 _ rfl (by decide) (by decide)
      · exact rule 9 _ rfl (by decide) (by decide)
  | blanks hne hall => exact rule 17 _ rfl (by decide) (mem_lang_plus_cls.mpr ⟨hne, hall⟩)
  | alphaWord ha hu => exact rule 12 _ rfl (by decide) (mem_alphaWord.mpr ⟨ha, hu⟩)
  | envar ha hkey hne hval =>
      exact rule 15 _ rfl (by decide) (mem_envar.mpr ⟨_, _, _, rfl, ha, hkey, hne,
        fun c hc => valByte_iff.mp (hval c hc)⟩)
  | number hne hd => exact rule 10 _ rfl (by decide) (mem_lang_plus_cls.mpr ⟨hne, hd⟩)
  | alnumWord hne hd _ hu =>
      exact rule 11 _ rfl (by decide) (mem_alnumWord.mpr ⟨_, _, rfl, hne, hd, hu⟩)
  | path hu => exact rule 13 _ rfl (by decide) (mem_path.mpr ⟨rfl, Or.inl hu⟩)
  | longPath hu hx =>
      exact rule 13 _ rfl (by decide) (mem_path.mpr ⟨rfl, Or.inr ⟨_, _, rfl, hu, hx⟩⟩)
  | argKey hne hu => exact rule 14 _ rfl (by decide) (mem_argKey.mpr ⟨_, hne, hu, Or.inl rfl⟩)
  | longKey hne hu => exact rule 14 _ rfl (by decide) (mem_argKey.mpr ⟨_, hne, hu, Or.inr rfl⟩)

/-- The kinds of bytes of a word, and what is not among them. -/
theorem byte_kinds (c : UInt8) :
    (keyByte c = true → alphaByte c = true) ∧ (isDigit c && alnumByte c) = false ∧
      (Pattern.path.uses c = true → pathByte c = true) := by
  have h := forall_byte (p := fun c => (!keyByte c || alphaByte c) &&
    (!(isDigit c && alnumByte c) && (!Pattern.path.uses c || pathByte c))) (by decide +kernel) c
  simpa only [Bool.and_eq_true, Bool.or_eq_true, Bool.not_eq_true', ← Bool.not_eq_true,
    imp_iff_not_or] using h

/-- No rule matches beyond a word that is followed by another byte. -/
theorem Spelling.stops (h : Spelling w p) (hc : p c = false) (hq : q ∈ rules.take 18) :
    w ++ c :: z ∉ q.pattern.lang := by
  intro hmem
  cases h with
  | punct hb =>
      have := (rule_starts hq hmem).of_punct hb
      cases this
  | blanks hne hall =>
      obtain ⟨a, u, rfl⟩ := List.exists_cons_of_ne_nil hne
      have := (rule_starts hq hmem).of_blank (List.contains_iff_mem.mp (hall a List.mem_cons_self))
        c (by simp)
      rw [hc] at this
      cases this
  | alphaWord ha hu =>
      rename_i a u
      obtain ⟨halpha, heq⟩ := Bool.or_eq_false_iff.mp hc
      rcases (rule_starts hq hmem).of_alpha ha with hw | hw
      · have := (mem_alphaWord.mp hw).2 c (by simp)
        rw [halpha] at this
        cases this
      · have h61 : 61 ∉ a :: u := by
          rintro (_ | ⟨_, hin⟩)
          · exact absurd ha (by decide)
          · exact absurd (hu 61 hin) (by decide)
        have hkey : keyByte c = false := by
          rw [← Bool.not_eq_true]
          exact fun h => Bool.eq_false_iff.mp halpha ((byte_kinds c).1 h)
        refine not_envar h61 hkey ?_ hw
        rintro rfl
        exact absurd heq (by decide)
  | envar ha hkey hne hval =>
      rename_i a key val
      rcases (rule_starts hq hmem).of_alpha ha with hw | hw
      · exact absurd ((mem_alphaWord.mp hw).2 61 (by simp)) (by decide)
      · obtain ⟨b, key', val', heq, -, hkey', -, hval'⟩ := mem_envar.mp hw
        have h61 : ∀ {k : Str}, (∀ c ∈ k, keyByte c = true) → 61 ∉ k :=
          fun hk hin => absurd (hk 61 hin) (by decide)
        have htail : key ++ 61 :: (val ++ c :: z) = key' ++ 61 :: val' := by
          simpa using (List.cons.inj heq).2
        obtain ⟨-, rfl⟩ := append_cons_unique (h61 hkey) (h61 hkey') htail
        have := valByte_iff.mpr (hval' c (by simp))
        rw [hc] at this
        cases this
  | number hne hd =>
      obtain ⟨a, u, rfl⟩ := List.exists_cons_of_ne_nil hne
      obtain ⟨hdigit, halnum⟩ := Bool.or_eq_false_iff.mp hc
      obtain ⟨d, x, heq, -, hd', hx⟩ := mem_alnumWord.mp
        ((rule_starts hq hmem).of_digit (hd a List.mem_cons_self))
      have hin : c ∈ d ++ x := by
        rw [← heq]
        simp
      rcases List.mem_append.mp hin with hin | hin
      · exact Bool.eq_false_iff.mp hdigit (hd' c hin)
      · exact Bool.eq_false_iff.mp halnum (hx c hin)
  | alnumWord hne hd hne' hu =>
      obtain ⟨a, d, rfl⟩ := List.exists_cons_of_ne_nil hne
      obtain ⟨b, u, rfl⟩ := List.exists_cons_of_ne_nil hne'
      obtain ⟨d', x, heq, -, hd', hx⟩ := mem_alnumWord.mp
        ((rule_starts hq hmem).of_digit (hd a List.mem_cons_self))
      have hcx : c ∉ x := fun hin => Bool.eq_false_iff.mp hc (hx c hin)
      have hbd : b ∉ d' := by
        intro hin
        have := (byte_kinds b).2.1
        rw [hd' b hin, hu b List.mem_cons_self] at this
        cases this
      have hcut : a :: d ++ b :: (u ++ c :: z) = d' ++ x := by
        rw [← heq]
        simp
      -- the digits end before `b`, so `c` would be behind them
      rcases List.append_eq_append_iff.mp hcut with ⟨k, rfl, hk⟩ | ⟨k, -, rfl⟩
      · cases k with
        | nil =>
            obtain rfl : _ = x := hk
            exact hcx (by simp)
        | cons e k =>
            obtain ⟨rfl, -⟩ := List.cons.inj hk
            exact hbd (by simp)
      · exact hcx (by simp)
  | path hu =>
      rename_i u
      obtain ⟨hpart, hslash⟩ := Bool.or_eq_false_iff.mp hc
      rcases (mem_path.mp (rule_starts hq hmem).of_slash).2 with hw | ⟨u', x, heq, hu', -⟩
      · exact Bool.eq_false_iff.mp hpart (hw c (by simp))
      · have hslash' : 47 ∉ u := fun hin => absurd (hu 47 hin) (by decide)
        have hcu : c ∉ u' := fun hin => Bool.eq_false_iff.mp hpart (hu' c hin)
        obtain ⟨rfl, -⟩ := append_cons_unique hslash' hcu heq
        exact absurd hslash (by decide)
  | longPath hu hx =>
      have huse := uses_of_mem (rule_starts hq hmem).of_slash (a := c) (by simp)
      rw [(byte_kinds c).2.2 huse] at hc
      cases hc
  | argKey hne hu =>
      have := (argKey_append (mem_argKey.mpr ⟨_, hne, hu, Or.inl rfl⟩)).mp
        (rule_starts hq hmem).of_dash c List.mem_cons_self
      rw [hc] at this
      cases this
  | longKey hne hu =>
      have := (argKey_append (mem_argKey.mpr ⟨_, hne, hu, Or.inr rfl⟩)).mp
        (rule_starts hq hmem).of_dash c List.mem_cons_self
      rw [hc] at this
      cases this

theorem forall_concat (hu : ∀ d ∈ u, p d = true) (hc : p c = true) :
    ∀ d ∈ u ++ [c], p d = true :=
  List.forall_mem_append.mpr ⟨hu, List.forall_mem_singleton.mpr hc⟩

/-- What a rule matches that is no newline is such a word, and ended by what
follows it, unless that is a `=`. -/
theorem Wins.spelling {bol : Bool} (h : Wins bol q w v) (hq : q ∈ rules.take 18) (hne : w ≠ [])
    (h10 : w ≠ [10]) (h61 : v.head? ≠ some 61) : ∃ p, Spelling w p ∧ Ended p v := by
  have ended : ∀ {p : UInt8 → Bool} (i : Nat) (r : Rule), rules[i]? = some r → i < 18 →
      (∀ c, p c = true → w ++ [c] ∈ r.pattern.lang) → Ended p v := by
    intro p i r hi hlt hgo c hc
    obtain ⟨v', rfl⟩ := List.head?_eq_some_iff.mp hc
    cases hp : p c with
    | false => rfl
    | true => exact absurd (hgo c hp) (h.concat_not_mem hq (mem_take_rules hi hlt))
  obtain ⟨a, u, rfl⟩ := List.exists_cons_of_ne_nil hne
  cases rule_starts hq (h.mem_lang hq) with
  | letter ha hw =>
      rcases hw with hw | hw
      · obtain ⟨-, hu⟩ := mem_alphaWord.mp hw
        have hend : Ended alphaByte v := ended 12 _ rfl (by decide) fun c hc =>
          mem_alphaWord.mpr ⟨ha, forall_concat hu hc⟩
        refine ⟨_, .alphaWord ha hu, fun c hc => Bool.or_eq_false_iff.mpr ⟨hend c hc, ?_⟩⟩
        rw [Bool.eq_false_iff, Ne, oneOf, List.contains_iff_mem]
        intro hin
        obtain rfl := List.mem_singleton.mp hin
        exact h61 hc
      · obtain ⟨b, key, val, heq, hb, hkey, hne, hval⟩ := mem_envar.mp hw
        rw [heq]
        refine ⟨_, .envar hb hkey hne fun c hc => valByte_iff.mpr (hval c hc), ?_⟩
        exact ended 15 _ rfl (by decide) fun c hc => envar_concat hw (valByte_iff.mp hc)
  | digit ha hw =>
      obtain ⟨d, x, heq, hne, hd, hx⟩ := mem_alnumWord.mp hw
      have halnum : Ended alnumByte v := by
        refine ended 11 _ rfl (by decide) fun c hc => mem_alnumWord.mpr ⟨d, x ++ [c], ?_, hne, hd,
          forall_concat hx hc⟩
        rw [heq, List.append_assoc]
      rw [heq] at ended ⊢
      by_cases hnil : x = []
      · subst hnil
        rw [List.append_nil] at ended ⊢
        have hdigit : Ended isDigit v := ended 10 _ rfl (by decide) fun c hc =>
          mem_lang_plus_cls.mpr ⟨by simp, forall_concat hd hc⟩
        exact ⟨_, .number hne hd, fun c hc =>
          Bool.or_eq_false_iff.mpr ⟨hdigit c hc, halnum c hc⟩⟩
      · exact ⟨_, .alnumWord hne hd hnil hx, halnum⟩
  | slash ha hw =>
      obtain ⟨rfl, hu | ⟨y, x, rfl, hy, hx⟩⟩ := mem_path.mp hw
      · refine ⟨_, .path hu, ended 13 _ rfl (by decide) fun c hc => mem_path.mpr ⟨rfl, ?_⟩⟩
        rcases Bool.or_eq_true_iff.mp hc with hc | hc
        · exact Or.inl (forall_concat hu hc)
        · obtain rfl := slash_iff.mp hc
          exact Or.inr ⟨u, [], rfl, hu, by simp⟩
      · refine ⟨_, .longPath hy hx, ended 13 _ rfl (by decide) fun c hc => mem_path.mpr ⟨rfl, ?_⟩⟩
        exact Or.inr ⟨y, x ++ [c], by simp, hy, forall_concat hx hc⟩
  | dash ha hw =>
      have hend : Ended argByte v := ended 14 _ rfl (by decide) fun c hc =>
        (argKey_append hw).mpr fun d hd => List.mem_singleton.mp hd ▸ hc
      obtain ⟨y, hne, hy, hw | hw⟩ := mem_argKey.mp hw
      · rw [hw]
        exact ⟨_, .argKey hne hy, hend⟩
      · rw [hw]
        exact ⟨_, .longKey hne hy, hend⟩
  | blank ha hu =>
      have hall : ∀ c ∈ a :: u, oneOf [' ', '\t'] c = true := List.forall_mem_cons.mpr ⟨ha, hu⟩
      exact ⟨_, .blanks hne hall, ended 17 _ rfl (by decide) fun c hc =>
        mem_lang_plus_cls.mpr ⟨by simp, forall_concat hall hc⟩⟩
  | single ha hu =>
      subst hu
      refine ⟨_, .punct ?_, fun c hc => rfl⟩
      have hmem : a ∈ bytes ['{', '}', '"', ';'] ++ [10] := List.contains_iff_mem.mp ha
      rcases List.mem_append.mp hmem with hmem | hmem
      · exact hmem
      · rw [List.mem_singleton.mp hmem] at h10
        exact absurd rfl h10

end

/-! ## The lexemes of a line -/

/-- A lexeme begins, or the text ends, behind `u`. -/
def Cut (s u : Str) : Prop := ∃ l₁ l₂, lexemes s = l₁ ++ l₂ ∧ l₁.flatMap Lexeme.text = u

section
variable {s u l v w x t : Str} {k : Lexeme} {i : Nat} {p : UInt8 → Bool}

theorem cut_nil : Cut s [] := ⟨[], lexemes s, rfl, rfl⟩

theorem LexemeAt.cut (h : LexemeAt s u k) : Cut s (u ++ k.text) := by
  obtain ⟨l₁, l₂, hl, rfl⟩ := h
  exact ⟨l₁ ++ [k], l₂, by rw [hl, List.append_assoc]; rfl, by simp⟩

theorem Cut.lexemeAt (h : Cut s u) (hlt : u.length < s.length) : ∃ k, LexemeAt s u k := by
  obtain ⟨l₁, l₂, hl, rfl⟩ := h
  cases l₂ with
  | nil =>
      rw [← lexemes_flatMap (s := s), hl, List.append_nil] at hlt
      exact absurd hlt (Nat.lt_irrefl _)
  | cons k l₂ => exact ⟨k, l₁, l₂, hl, rfl⟩

/-- A newline is a lexeme of its own. -/
theorem LexemeAt.newline (h : LexemeAt s u k) (h10 : 10 ∈ k.text) : k.text = [10] := by
  obtain ⟨v, -, -, ⟨r, hwin, -⟩ | ⟨a, ha, -, -⟩⟩ := h.cases
  · by_contra hne
    rcases mem_rules_iff.mp hwin.mem with hr | rfl
    · obtain rfl := newline_match hwin.mem (hwin.mem_lang hr) h10 hne
      exact absurd (plain_rules _ hr).1 (by decide)
    · obtain ⟨-, y, -, hy, hnot, -⟩ := hwin.comment
      rw [hy] at h10
      exact hnot (List.mem_of_ne_of_mem (by decide) h10)
  · rw [ha] at h10 ⊢
    rw [List.mem_singleton.mp h10]

/-- Each line begins with a lexeme of its own. -/
theorem LineAt.cut (h : LineAt s u l) : Cut s u := by
  obtain ⟨rfl | hend, -, hs⟩ := h
  · exact cut_nil
  · obtain ⟨u, rfl⟩ : ∃ y, u = y ++ [10] := by
      rw [endsLine, beq_iff_eq] at hend
      exact List.getLast?_eq_some_iff.mp hend
    obtain ⟨rest, rfl⟩ : ∃ rest, s = u ++ 10 :: rest := by
      rcases hs with rfl | ⟨v, rfl⟩ <;> exact ⟨_, List.append_assoc ..⟩
    obtain ⟨y, k, hk, hle, hlt⟩ := lexeme_covers (s := u ++ 10 :: rest) (i := u.length) (by simp)
    obtain ⟨v, hv, -, -⟩ := hk.cases
    have hget : (y ++ (k.text ++ v))[u.length]? = some 10 := by
      rw [← hv]
      simp
    rw [List.getElem?_append_right hle, List.getElem?_append_left (by omega)] at hget
    have htext := hk.newline (List.mem_of_getElem? hget)
    rw [htext, List.length_singleton] at hlt
    obtain ⟨rfl, -⟩ := List.append_inj hv (by omega)
    have hcut := hk.cut
    rwa [htext] at hcut

theorem LineAt.split (h : LineAt s u l) : ∃ t, s = u ++ (l ++ t) ∧ ∀ c ∈ t.head?, c = 10 := by
  rcases h.2.2 with rfl | ⟨v, rfl⟩
  · exact ⟨[], by rw [List.append_nil], by simp⟩
  · exact ⟨10 :: v, rfl, by simp⟩

theorem endsLine_append (hv : v ≠ []) (h : endsLine (u ++ v) = true) : 10 ∈ v := by
  rw [endsLine, List.getLast?_append_of_ne_nil u hv, beq_iff_eq] at h
  exact List.mem_of_getLast? h

/-- The places of a line that does not begin with `#` are on no comment. -/
theorem LineAt.not_onComment (h : LineAt s u l) (hl : l.head? ≠ some 35) (hle : u.length ≤ i)
    (hlt : i < u.length + l.length) : ¬OnComment s i := by
  rintro ⟨y, v, hy, hbol, hyi, hv⟩
  obtain ⟨t, hs, -⟩ := h.split
  rw [hy] at hs
  have hstart : y ≠ u := by
    rintro rfl
    have htail := List.append_cancel_left hs
    cases l with
    | nil =>
        rw [List.length_nil] at hlt
        omega
    | cons c l =>
        obtain ⟨rfl, -⟩ := List.cons.inj htail
        exact hl rfl
  rcases List.append_eq_append_iff.mp hs with ⟨c, rfl, hc⟩ | ⟨c, rfl, hc⟩
  · -- a comment of a line before would go beyond the end of that line
    cases c with
    | nil => exact hstart (List.append_nil y).symm
    | cons d c =>
        rw [List.cons_append] at hc
        obtain ⟨rfl, rfl⟩ := List.cons.inj hc
        have h10 := endsLine_append (by simp) (h.1.resolve_left (by simp))
        rw [List.length_append, List.length_cons] at hle
        rw [List.take_append, List.take_of_length_le (by omega)] at hv
        exact hv (List.mem_append_left _ (List.mem_of_ne_of_mem (by decide) h10))
  · -- a comment that begins inside the line would begin behind a newline
    have hne : c ≠ [] := by
      rintro rfl
      exact hstart (List.append_nil u)
    have h10 := endsLine_append hne (hbol.resolve_left (by simp [hne]))
    have htake := congrArg (List.take c.length) hc
    rw [List.length_append] at hyi
    rw [List.take_left, List.take_append_of_le_length (by omega)] at htake
    exact h.2.1 (List.mem_of_mem_take (htake ▸ h10))

/-- A word of the line is a lexeme. -/
theorem Spelling.text_eq (hw : Spelling w p) (hp : Ended p v) (hk : LexemeAt s u k)
    (hs : s = u ++ (w ++ v)) : k.text = w := by
  obtain ⟨q, hq, hmem⟩ := hw.matched
  obtain ⟨v', hv', hne, hcase⟩ := hk.cases
  have heq : k.text ++ v' = w ++ v := List.append_cancel_left (hv'.symm.trans hs)
  have hbol : q.bol = true → bolAfter true u = true := by
    rw [(plain_rules q hq).1]
    exact fun h => absurd h Bool.false_ne_true
  have htake : (k.text ++ v').take w.length = w := by
    rw [heq, List.take_left]
  rcases hcase with ⟨r, hwin, -⟩ | ⟨a, -, hno, -⟩
  · rcases mem_rules_iff.mp hwin.mem with hr | rfl
    · rcases List.append_eq_append_iff.mp heq with ⟨c, hc, -⟩ | ⟨c, hc, hv⟩
      · -- a shorter lexeme would not be the longest match
        cases c with
        | nil => rw [hc, List.append_nil]
        | cons d c =>
            have hlt : k.text.length < w.length := by simp [hc]
            have hle : w.length ≤ (k.text ++ v').length := by simp [heq]
            refine absurd hmem ?_
            rw [← htake]
            exact hwin.bounded hr hlt hle (List.mem_of_mem_take hq) hbol
      · -- a longer one would not stop where the word does
        cases c with
        | nil => rw [hc, List.append_nil]
        | cons d c =>
            have hlang := hwin.mem_lang hr
            rw [hc] at hlang
            exact absurd hlang (hw.stops (hp d (by rw [hv]; rfl)) hr)
    · obtain ⟨-, y, z, hy, -, -⟩ := hwin.comment
      obtain ⟨b, w, rfl⟩ := List.exists_cons_of_length_pos
        (Nat.zero_lt_of_lt (trail_lt (List.mem_of_mem_take hq) hmem))
      rw [hy] at heq
      obtain ⟨rfl, -⟩ := List.cons.inj heq
      exact absurd hmem (not_mem_of_canStart line_rules.2 q hq)
  · exact absurd hmem (by rw [← htake]; exact hno q (List.mem_of_mem_take hq) hbol _)

/-! ## Lines that lose no byte -/

theorem Spelling.newline (h : Spelling w p) : p 10 = false := by
  cases h <;> decide

/-- Where a line ends, so does a word. -/
theorem Spelling.ended_append (h : Spelling w p) (ht : ∀ c ∈ t.head?, c = 10) :
    Ended p (v ++ t) ↔ Ended p v := by
  cases v with
  | nil =>
      refine iff_of_true (fun c hc => ?_) fun c hc => ?_
      · rw [ht c hc]
        exact h.newline
      · cases hc
  | cons c v => exact Iff.rfl

/-- Every place of a legible line is in a lexeme that is one of its words. -/
theorem Legible.lexeme (h : Legible l) (hs : s = u ++ (l ++ t)) (ht : ∀ c ∈ t.head?, c = 10)
    (hcut : Cut s u) (hle : u.length ≤ i) (hlt : i < u.length + l.length) :
    ∃ y k p, LexemeAt s y k ∧ y.length ≤ i ∧ i < y.length + k.text.length ∧ Spelling k.text p := by
  induction h generalizing u with
  | nil =>
      rw [List.length_nil] at hlt
      omega
  | @word w v p hw hp _ ih =>
      have hlen : u.length < s.length := by
        rw [hs]
        simp only [List.length_append] at hlt ⊢
        omega
      obtain ⟨k, hk⟩ := hcut.lexemeAt hlen
      have htext := hw.text_eq ((hw.ended_append ht).mpr hp) hk (by rw [hs, List.append_assoc])
      by_cases hin : i < u.length + w.length
      · exact ⟨u, k, p, hk, hle, by rwa [htext], by rwa [htext]⟩
      · refine ih (u := u ++ w) (by rw [hs]; simp) (htext ▸ hk.cut) ?_ ?_
        · rw [List.length_append]
          omega
        · rw [List.length_append] at hlt ⊢
          omega

/-- A lexeme of a line that does not begin with `#`, if none of the text is
lost. -/
theorem LineAt.recognised {y : Str} (h : LineAt s u (y ++ l)) (hl : (y ++ l).head? ≠ some 35)
    (hs : s = u ++ (y ++ l ++ t)) (hne : l ≠ []) (hcut : Cut s (u ++ y))
    (hall : ∀ z k, LexemeAt s z k → OnComment s z.length ∨ recognised (s.drop z.length) = true) :
    ∃ k, LexemeAt s (u ++ y) k ∧ Bitzer.recognised (l ++ t) = true := by
  have hpos := List.length_pos_iff.mpr hne
  have hlen : (u ++ y).length < s.length := by
    rw [hs]
    simp only [List.length_append]
    omega
  obtain ⟨k, hk⟩ := hcut.lexemeAt hlen
  have hcom : ¬OnComment s (u ++ y).length :=
    h.not_onComment hl (by simp) (by simp only [List.length_append]; omega)
  have hdrop : s.drop (u ++ y).length = l ++ t := by
    rw [hs, ← List.append_assoc, ← List.append_assoc, List.append_assoc, List.drop_left]
  exact ⟨k, hk, hdrop ▸ (hall _ k hk).resolve_left hcom⟩

/-- Such a lexeme is what a rule matches on this line. -/
theorem LineAt.wins {y : Str} (h : LineAt s u (y ++ l)) (hl : (y ++ l).head? ≠ some 35)
    (hs : s = u ++ (y ++ l ++ t)) (ht : ∀ c ∈ t.head?, c = 10) (hne : l ≠ [])
    (hk : LexemeAt s (u ++ y) k) (hrec : Bitzer.recognised (l ++ t) = true) :
    ∃ r c, r ∈ rules.take 18 ∧ l = k.text ++ c ∧ k.text ≠ [] ∧ k.text ≠ [10] ∧
      Wins (bolAfter true (u ++ y)) r k.text (c ++ t) := by
  obtain ⟨v, hv, htext, hcase⟩ := hk.cases
  have hcat : u ++ y ++ (k.text ++ v) = u ++ y ++ (l ++ t) := by
    rw [← hv, hs]
    simp
  have heq : k.text ++ v = l ++ t := List.append_cancel_left hcat
  obtain ⟨a, l, rfl⟩ := List.exists_cons_of_ne_nil hne
  have ha : a ≠ 10 := by
    rintro rfl
    exact h.2.1 (by simp)
  have hline : k.text ≠ [10] := by
    intro h10
    rw [h10] at heq
    exact ha (List.cons.inj heq).1.symm
  have h10 : 10 ∉ k.text := fun hin => hline (hk.newline hin)
  rcases hcase with ⟨r, hwin, -⟩ | ⟨b, -, hno, -⟩
  · -- the lexeme ends on the line
    obtain ⟨c, hc, rfl⟩ : ∃ c, a :: l = k.text ++ c ∧ v = c ++ t := by
      rcases List.append_eq_append_iff.mp heq with ⟨c, hc, hv'⟩ | ⟨c, hc, hv'⟩
      · exact ⟨c, hc, hv'⟩
      · cases c with
        | nil => exact ⟨[], by rw [hc]; simp, by simpa using hv'.symm⟩
        | cons d c =>
            obtain rfl := ht d (by rw [hv']; rfl)
            exact absurd (by rw [hc]; simp) h10
    rcases mem_rules_iff.mp hwin.mem with hr | rfl
    · exact ⟨r, c, hr, hc, htext, hline, hwin⟩
    · -- a comment begins at the beginning of a line
      obtain ⟨hbol, z, -, hz, -, -⟩ := hwin.comment
      rw [hz] at hc
      obtain ⟨rfl, -⟩ := List.cons.inj hc
      cases y with
      | nil => exact absurd rfl hl
      | cons d y =>
          rw [bolAfter, if_neg (by simp)] at hbol
          exact absurd (List.mem_append_left _ (endsLine_append (by simp) hbol)) h.2.1
  · obtain ⟨q, hq, n, hn⟩ := (recognised_iff (by simp)).mp hrec
    have hbol : q.bol = true → bolAfter true (u ++ y) = true := by
      rw [(plain_rules q hq).1]
      exact fun h => absurd h Bool.false_ne_true
    rw [heq] at hno
    exact absurd hn (hno q (List.mem_of_mem_take hq) hbol n)

/-- A line from a lexeme on is legible if no lexeme of it is lost. -/
theorem legible_of_recognised {y : Str} (h : LineAt s u (y ++ l))
    (hl : (y ++ l).head? ≠ some 35) (hcut : Cut s (u ++ y))
    (hall : ∀ z k, LexemeAt s z k → OnComment s z.length ∨ recognised (s.drop z.length) = true) :
    Legible l := by
  obtain ⟨t, hs, ht⟩ := h.split
  induction hn : l.length using Nat.strong_induction_on generalizing l y with
  | _ n ih =>
    by_cases hne : l = []
    · rw [hne]
      exact .nil
    · obtain ⟨k, hk, hrec⟩ := h.recognised hl hs hne hcut hall
      obtain ⟨r, c, hr, rfl, htext, hline, hwin⟩ := h.wins hl hs ht hne hk hrec
      have hcut' : Cut s (u ++ (y ++ k.text)) := by
        rw [← List.append_assoc]
        exact hk.cut
      rw [← List.append_assoc y] at h hl hs
      -- a `=` behind the word would be lost
      have h61 : (c ++ t).head? ≠ some 61 := by
        intro h61
        cases c with
        | nil => exact absurd (ht 61 h61) (by decide)
        | cons d c =>
            obtain rfl := Option.some.inj h61
            obtain ⟨-, -, hrec'⟩ := h.recognised hl hs (by simp) hcut' hall
            have hlost : ∀ v, Bitzer.recognised (61 :: v) = false := fun v => rfl
            rw [List.cons_append, hlost] at hrec'
            cases hrec'
      obtain ⟨p, hw, hp⟩ := hwin.spelling hr htext hline h61
      refine .word hw ((hw.ended_append ht).mp hp) (ih c.length ?_ h hl hcut' hs rfl)
      have hpos := List.length_pos_iff.mpr htext
      rw [← hn, List.length_append]
      omega

/-- The line that a byte is on. -/
theorem lineAt_of_lt {c : UInt8} (hc : s[i]? = some c) (h10 : c ≠ 10) :
    ∃ u l, LineAt s u l ∧ u.length ≤ i ∧ i < u.length + l.length := by
  obtain ⟨hi, rfl⟩ := List.getElem?_eq_some_iff.mp hc
  have hstart : ∀ v : Str, ∃ u y, v = u ++ y ∧ (u = [] ∨ endsLine u = true) ∧ 10 ∉ y := by
    intro v
    induction v using List.reverseRecOn with
    | nil => exact ⟨[], [], rfl, Or.inl rfl, by simp⟩
    | append_singleton v d ih =>
        by_cases hd : d = 10
        · subst hd
          exact ⟨v ++ [10], [], by simp, Or.inr (by simp [endsLine]), by simp⟩
        · obtain ⟨u, y, rfl, hu, hy⟩ := ih
          exact ⟨u, y ++ [d], by simp, hu, by simp [hy, Ne.symm hd]⟩
  obtain ⟨v, hcut⟩ : ∃ v, s = s.take i ++ s[i] :: v :=
    ⟨s.drop (i + 1), by rw [List.getElem_cons_drop, List.take_append_drop]⟩
  obtain ⟨u, y, huy, hu, hy⟩ := hstart (s.take i)
  have hlen : u.length + y.length = i := by
    rw [← List.length_append, ← huy, List.length_take_of_le hi.le]
  by_cases hend : 10 ∈ v
  · obtain ⟨z, v, rfl, hz⟩ := List.eq_append_cons_of_mem hend
    refine ⟨u, y ++ s[i] :: z, ⟨hu, by simp [hy, hz, Ne.symm h10], Or.inr ⟨v, ?_⟩⟩,
      by omega, by simp only [List.length_append, List.length_cons]; omega⟩
    rw [huy] at hcut
    simpa using hcut
  · refine ⟨u, y ++ s[i] :: v, ⟨hu, by simp [hy, hend, Ne.symm h10], Or.inl ?_⟩,
      by omega, by simp only [List.length_append, List.length_cons]; omega⟩
    rw [huy] at hcut
    simpa using hcut

/-- A line that begins with `#` is a comment. -/
theorem LineAt.onComment (h : LineAt s u l) (hl : l.head? = some 35) (hle : u.length ≤ i)
    (hlt : i < u.length + l.length) : OnComment s i := by
  obtain ⟨t, hs, -⟩ := h.split
  obtain ⟨l, rfl⟩ := List.head?_eq_some_iff.mp hl
  refine ⟨u, l ++ t, hs, h.1, hle, fun hin => ?_⟩
  rw [List.length_cons] at hlt
  rw [List.take_append_of_le_length (by omega)] at hin
  exact h.2.1 (List.mem_cons_of_mem _ (List.mem_of_mem_take hin))

/-- No byte of a text is lost if and only if each line of it that does not begin
with `#` is a sequence of words, each ended by what follows it. -/
theorem no_byte_lost_iff (s : Str) :
    NoByteLost s ↔ ∀ u l, LineAt s u l → l.head? = some 35 ∨ Legible l := by
  rw [noByteLost_lexemes]
  constructor
  · intro h u l hline
    by_cases hl : l.head? = some 35
    · exact Or.inl hl
    · exact Or.inr (legible_of_recognised (y := []) hline hl (by simpa using hline.cut) h)
  · intro h z k hk
    obtain ⟨v, hs, htext, -⟩ := hk.cases
    obtain ⟨a, w, haw⟩ := List.exists_cons_of_ne_nil htext
    have hget : s[z.length]? = some a := by
      rw [hs, getElem?_lexeme htext, haw]
      rfl
    have hdrop : s.drop z.length = k.text ++ v := by
      rw [hs, List.drop_left]
    rw [hdrop]
    by_cases h10 : a = 10
    · subst h10
      rw [haw]
      exact Or.inr rfl
    obtain ⟨u, l, hline, hle, hlt⟩ := lineAt_of_lt hget h10
    rcases h u l hline with hl | hl
    · exact Or.inl (hline.onComment hl hle hlt)
    · obtain ⟨t, ht, htail⟩ := hline.split
      obtain ⟨y, k', p, hk', hyle, hylt, hspell⟩ := hl.lexeme ht htail hline.cut hle hlt
      have hpos := List.length_pos_iff.mpr htext
      obtain rfl := hk.unique hk' le_rfl (by omega) hyle hylt
      obtain ⟨q, hq, hmem⟩ := hspell.matched
      refine Or.inr ((recognised_iff (by simp [htext])).mpr ⟨q, hq, k.text.length, ?_⟩)
      rwa [List.take_left]

/-- `task{name s;args 1.5;}` is accepted, without its dot. -/
theorem not_noByteLost :
    ¬∀ s st, yyparse .tasks ⟨[], none⟩ (yylex s) = .accept st → NoByteLost s := by
  intro h
  have htokens : yylex [116, 97, 115, 107, 123, 110, 97, 109, 101, 32, 115, 59, 97, 114, 103, 115,
      32, 49, 46, 53, 59, 125] =
      [.tokenTask, .openBrace, .tokenName, .alphaWord [115], .semicolon, .tokenArgs, .number [49],
        .number [53], .semicolon, .endBrace] := by decide +kernel
  have hlost := h [116, 97, 115, 107, 123, 110, 97, 109, 101, 32, 115, 59, 97, 114, 103, 115, 32,
    49, 46, 53, 59, 125] _ (by rw [htokens]; rfl)
  -- the lexeme of the dot
  have hdot : lexemes [116, 97, 115, 107, 123, 110, 97, 109, 101, 32, 115, 59, 97, 114, 103, 115,
      32, 49, 46, 53, 59, 125] =
      [⟨[116, 97, 115, 107], some .tokenTask, false⟩, ⟨[123], some .openBrace, false⟩,
        ⟨[110, 97, 109, 101], some .tokenName, false⟩, ⟨[32], none, false⟩,
        ⟨[115], some (.alphaWord [115]), false⟩, ⟨[59], some .semicolon, false⟩,
        ⟨[97, 114, 103, 115], some .tokenArgs, false⟩, ⟨[32], none, false⟩,
        ⟨[49], some (.number [49]), false⟩] ++ ⟨[46], none, true⟩ ::
        [⟨[53], some (.number [53]), false⟩, ⟨[59], some .semicolon, false⟩,
          ⟨[125], some .endBrace, false⟩] := by decide +kernel
  have hcom : ¬OnComment [116, 97, 115, 107, 123, 110, 97, 109, 101, 32, 115, 59, 97, 114, 103, 115,
      32, 49, 46, 53, 59, 125] 18 := by
    rintro ⟨u, v, hs, -⟩
    have hmem : (35 : UInt8) ∈ u ++ 35 :: v := by simp
    rw [← hs] at hmem
    exact absurd hmem (by decide)
  obtain ⟨u, x, hx, hle, hlt, htoken⟩ := hlost 18 46 rfl (by decide) hcom
  have hat : LexemeAt _ _ _ := ⟨_, _, hdot, rfl⟩
  obtain rfl := hat.unique hx (i := 18) (by decide) (by decide) hle hlt
  exact htoken rfl

end

end Bitzer
