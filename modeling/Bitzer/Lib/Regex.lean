import Mathlib.Computability.Language

/-!
# Regular expressions over classes

Regular expressions whose letters are classes of symbols, the language of each,
and the longest prefix of a text that is in it, computed with derivatives.
`canStart` and `uses` bound a language by the symbols its words begin with and
consist of, which is what most arguments about competing patterns need.
-/

namespace Lib

variable {α : Type}

inductive Regex (α : Type) where
  | zero
  | eps
  | cls (p : α → Bool)
  | seq (r s : Regex α)
  | alt (r s : Regex α)
  | star (r : Regex α)

namespace Regex

/-- The words that an expression matches. -/
def lang : Regex α → Language α
  | zero => 0
  | eps => 1
  | cls p => {w | ∃ a, p a = true ∧ w = [a]}
  | seq r s => r.lang * s.lang
  | alt r s => r.lang + s.lang
  | star r => KStar.kstar r.lang

def plus (r : Regex α) : Regex α := seq r (star r)

def opt (r : Regex α) : Regex α := alt r eps

/-- One word. -/
def lit [DecidableEq α] (w : List α) : Regex α :=
  w.foldr (fun a r => seq (cls fun b => decide (b = a)) r) eps

/-! ## Words of a language -/

section
variable {r s : Regex α} {p : α → Bool} {w : List α} {a : α}

@[simp] theorem mem_lang_zero : ¬ w ∈ (zero : Regex α).lang := fun h => h

@[simp] theorem mem_lang_eps : w ∈ (eps : Regex α).lang ↔ w = [] := Language.mem_one w

@[simp] theorem mem_lang_cls : w ∈ (cls p).lang ↔ ∃ a, p a = true ∧ w = [a] := Iff.rfl

theorem mem_lang_seq : w ∈ (seq r s).lang ↔ ∃ u ∈ r.lang, ∃ v ∈ s.lang, u ++ v = w :=
  Language.mem_mul

theorem mem_lang_alt : w ∈ (alt r s).lang ↔ w ∈ r.lang ∨ w ∈ s.lang := Language.mem_add _ _ w

theorem mem_lang_opt : w ∈ (opt r).lang ↔ w ∈ r.lang ∨ w = [] := by
  rw [opt, mem_lang_alt, mem_lang_eps]

theorem mem_lang_star_cls : w ∈ (star (cls p)).lang ↔ ∀ a ∈ w, p a = true := by
  show w ∈ KStar.kstar (cls p).lang ↔ _
  rw [Language.mem_kstar]
  constructor
  · rintro ⟨ws, rfl, hws⟩ a ha
    obtain ⟨v, hv, hav⟩ := List.mem_flatten.mp ha
    obtain ⟨b, hb, rfl⟩ := hws v hv
    rw [List.mem_singleton.mp hav]
    exact hb
  · intro hw
    refine ⟨w.map fun a => [a], by simp [← List.flatMap_def], ?_⟩
    intro v hv
    obtain ⟨a, ha, rfl⟩ := List.mem_map.mp hv
    exact ⟨a, hw a ha, rfl⟩

theorem cons_mem_star :
    a :: w ∈ (star r).lang ↔ ∃ u v, a :: u ∈ r.lang ∧ v ∈ (star r).lang ∧ u ++ v = w := by
  constructor
  · intro h
    obtain ⟨ws, hws, hne⟩ := Language.mem_kstar_iff_exists_nonempty.mp h
    cases ws with
    | nil => cases hws
    | cons u ws =>
        obtain ⟨hu, hnil⟩ := hne u List.mem_cons_self
        cases u with
        | nil => exact absurd rfl hnil
        | cons b u =>
            obtain ⟨rfl, rfl⟩ := List.cons.inj hws
            exact ⟨u, ws.flatten, hu,
              Language.join_mem_kstar fun y hy => (hne y (List.mem_cons_of_mem _ hy)).1, rfl⟩
  · rintro ⟨u, v, hu, hv, rfl⟩
    obtain ⟨ws, rfl, hws⟩ := Language.mem_kstar.mp hv
    exact Language.mem_kstar.mpr ⟨(a :: u) :: ws, rfl, List.forall_mem_cons.mpr ⟨hu, hws⟩⟩

theorem mem_lang_cons_cls :
    w ∈ (seq (cls p) r).lang ↔ ∃ a v, w = a :: v ∧ p a = true ∧ v ∈ r.lang := by
  rw [mem_lang_seq]
  constructor
  · rintro ⟨_, ⟨a, ha, rfl⟩, v, hv, rfl⟩
    exact ⟨a, v, rfl, ha, hv⟩
  · rintro ⟨a, v, rfl, ha, hv⟩
    exact ⟨[a], ⟨a, ha, rfl⟩, v, hv, rfl⟩

theorem mem_lang_plus_cls : w ∈ (plus (cls p)).lang ↔ w ≠ [] ∧ ∀ a ∈ w, p a = true := by
  rw [plus, mem_lang_cons_cls]
  constructor
  · rintro ⟨a, v, rfl, ha, hv⟩
    exact ⟨by simp, List.forall_mem_cons.mpr ⟨ha, mem_lang_star_cls.mp hv⟩⟩
  · rintro ⟨hne, hw⟩
    cases w with
    | nil => exact absurd rfl hne
    | cons a v =>
        obtain ⟨ha, hv⟩ := List.forall_mem_cons.mp hw
        exact ⟨a, v, rfl, ha, mem_lang_star_cls.mpr hv⟩

@[simp] theorem mem_lang_lit [DecidableEq α] {v : List α} : w ∈ (lit v).lang ↔ w = v := by
  induction v generalizing w with
  | nil => exact mem_lang_eps
  | cons a v ih =>
      show w ∈ (seq _ (lit v)).lang ↔ _
      rw [mem_lang_cons_cls]
      constructor
      · rintro ⟨b, u, rfl, hb, hu⟩
        rw [of_decide_eq_true hb, ih.mp hu]
      · rintro rfl
        exact ⟨a, v, rfl, decide_eq_true rfl, ih.mpr rfl⟩

end

/-! ## Derivatives -/

/-- The empty word is matched. -/
def nullable : Regex α → Bool
  | zero => false
  | eps => true
  | cls _ => false
  | seq r s => r.nullable && s.nullable
  | alt r s => r.nullable || s.nullable
  | star _ => true

/-- `seq` that drops what matches nothing or the empty word only. -/
def mkSeq : Regex α → Regex α → Regex α
  | zero, _ => zero
  | eps, s => s
  | r, s => seq r s

/-- `alt` that drops what matches nothing. -/
def mkAlt : Regex α → Regex α → Regex α
  | zero, s => s
  | r, zero => r
  | r, s => alt r s

/-- The rest of the words that begin with `a`. -/
def deriv (a : α) : Regex α → Regex α
  | zero => zero
  | eps => zero
  | cls p => if p a then eps else zero
  | seq r s =>
      if r.nullable then mkAlt (mkSeq (r.deriv a) s) (s.deriv a) else mkSeq (r.deriv a) s
  | alt r s => mkAlt (r.deriv a) (s.deriv a)
  | star r => mkSeq (r.deriv a) (star r)

def accepts (r : Regex α) : List α → Bool
  | [] => r.nullable
  | a :: w => (r.deriv a).accepts w

/-- The length of the longest prefix that is matched. -/
def longest (r : Regex α) : List α → Option Nat
  | [] => if r.nullable then some 0 else none
  | a :: w =>
      match (r.deriv a).longest w with
      | some n => some (n + 1)
      | none => if r.nullable then some 0 else none

@[simp] theorem lang_mkSeq (r s : Regex α) : (mkSeq r s).lang = (seq r s).lang := by
  unfold mkSeq
  split
  · exact (zero_mul _).symm
  · exact (one_mul _).symm
  · rfl

@[simp] theorem lang_mkAlt (r s : Regex α) : (mkAlt r s).lang = (alt r s).lang := by
  unfold mkAlt
  split
  · exact (zero_add _).symm
  · exact (add_zero _).symm
  · rfl

theorem nil_mem_lang {r : Regex α} : [] ∈ r.lang ↔ r.nullable = true := by
  induction r with
  | zero => simp [nullable]
  | eps => simp [nullable]
  | cls p => simp [nullable]
  | seq r s ihr ihs => simp [mem_lang_seq, nullable, ihr, ihs]
  | alt r s ihr ihs => simp [mem_lang_alt, nullable, ihr, ihs]
  | star r => exact iff_of_true (Language.nil_mem_kstar _) rfl

theorem cons_mem_lang {r : Regex α} {a : α} {w : List α} :
    a :: w ∈ r.lang ↔ w ∈ (r.deriv a).lang := by
  induction r generalizing w with
  | zero => simp [deriv]
  | eps => simp [deriv]
  | cls p =>
      by_cases hp : p a <;> simp [deriv, hp]
  | seq r s ihr ihs =>
      have hseq : a :: w ∈ (seq r s).lang ↔
          w ∈ (seq (r.deriv a) s).lang ∨ (r.nullable = true ∧ w ∈ (s.deriv a).lang) := by
        simp only [mem_lang_seq]
        constructor
        · rintro ⟨u, hu, v, hv, huv⟩
          cases u with
          | nil => exact Or.inr ⟨nil_mem_lang.mp hu, ihs.mp (by simpa [← huv] using hv)⟩
          | cons b u =>
              obtain ⟨rfl, rfl⟩ := List.cons.inj huv
              exact Or.inl ⟨u, ihr.mp hu, v, hv, rfl⟩
        · rintro (⟨u, hu, v, hv, rfl⟩ | ⟨hr, hw⟩)
          · exact ⟨a :: u, ihr.mpr hu, v, hv, rfl⟩
          · exact ⟨[], nil_mem_lang.mpr hr, a :: w, ihs.mpr hw, rfl⟩
      by_cases hr : r.nullable <;> simp [deriv, hr, hseq, mem_lang_alt]
  | alt r s ihr ihs => simp [deriv, mem_lang_alt, ihr, ihs]
  | star r ih =>
      rw [deriv, lang_mkSeq, mem_lang_seq, cons_mem_star]
      constructor
      · rintro ⟨u, v, hu, hv, huv⟩
        exact ⟨u, ih.mp hu, v, hv, huv⟩
      · rintro ⟨u, hu, v, hv, huv⟩
        exact ⟨u, v, ih.mpr hu, hv, huv⟩

theorem accepts_iff {r : Regex α} {w : List α} : r.accepts w = true ↔ w ∈ r.lang := by
  induction w generalizing r with
  | nil => exact nil_mem_lang.symm
  | cons a w ih => rw [accepts, ih, cons_mem_lang]

instance (r : Regex α) (w : List α) : Decidable (w ∈ r.lang) :=
  decidable_of_iff _ accepts_iff

/-! ## The longest prefix -/

theorem longest_some {r : Regex α} {w : List α} {n : Nat} (h : r.longest w = some n) :
    n ≤ w.length ∧ w.take n ∈ r.lang := by
  induction w generalizing r n with
  | nil =>
      simp only [longest] at h
      split at h
      · cases h
        exact ⟨le_rfl, nil_mem_lang.mpr ‹_›⟩
      · cases h
  | cons a w ih =>
      simp only [longest] at h
      split at h
      · rename_i m hm
        cases h
        obtain ⟨hle, hmem⟩ := ih hm
        exact ⟨Nat.succ_le_succ hle, cons_mem_lang.mpr hmem⟩
      · split at h
        · cases h
          exact ⟨Nat.zero_le _, nil_mem_lang.mpr ‹_›⟩
        · cases h

theorem longest_max {r : Regex α} {u v : List α} (h : u ∈ r.lang) :
    ∃ n, r.longest (u ++ v) = some n ∧ u.length ≤ n := by
  induction u generalizing r v with
  | nil =>
      have hn := nil_mem_lang.mp h
      cases v with
      | nil => exact ⟨0, by simp [longest, hn], le_rfl⟩
      | cons a v =>
          cases hl : (r.deriv a).longest v with
          | none => exact ⟨0, by simp [longest, hl, hn], le_rfl⟩
          | some n => exact ⟨n + 1, by simp [longest, hl], Nat.zero_le _⟩
  | cons a u ih =>
      obtain ⟨n, hn, hle⟩ := ih (v := v) (cons_mem_lang.mp h)
      exact ⟨n + 1, by simp [longest, hn], Nat.succ_le_succ hle⟩

/-- A matched word that no longer prefix competes with. -/
theorem longest_eq {r : Regex α} {u v : List α} (h : u ∈ r.lang)
    (hmax : ∀ n, u.length < n → n ≤ (u ++ v).length → (u ++ v).take n ∉ r.lang) :
    r.longest (u ++ v) = some u.length := by
  obtain ⟨n, hn, hle⟩ := longest_max (v := v) h
  obtain ⟨hlen, hmem⟩ := longest_some hn
  rcases hle.lt_or_eq with hlt | rfl
  · exact absurd hmem (hmax n hlt hlen)
  · exact hn

theorem not_mem_of_longest_none {r : Regex α} {w : List α} {n : Nat} (h : r.longest w = none) :
    w.take n ∉ r.lang := by
  intro hmem
  obtain ⟨k, hk, -⟩ := longest_max (v := w.drop n) hmem
  rw [List.take_append_drop, h] at hk
  cases hk

/-- What follows `p` does not matter if no match goes beyond `p`. -/
theorem longest_append_congr {r : Regex α} {p x y : List α}
    (hx : ∀ n, p.length < n → n ≤ (p ++ x).length → (p ++ x).take n ∉ r.lang)
    (hy : ∀ n, p.length < n → n ≤ (p ++ y).length → (p ++ y).take n ∉ r.lang) :
    r.longest (p ++ x) = r.longest (p ++ y) := by
  have hle : ∀ {z n}, (∀ n, p.length < n → n ≤ (p ++ z).length → (p ++ z).take n ∉ r.lang) →
      r.longest (p ++ z) = some n → n ≤ p.length ∧ p.take n ∈ r.lang := by
    intro z n hz hn
    obtain ⟨hlen, hmem⟩ := longest_some hn
    have hp : n ≤ p.length := Nat.not_lt.mp fun hlt => hz n hlt hlen hmem
    rw [List.take_append_of_le_length hp] at hmem
    exact ⟨hp, hmem⟩
  have hge : ∀ {z n}, n ≤ p.length → p.take n ∈ r.lang →
      ∃ m, r.longest (p ++ z) = some m ∧ n ≤ m := by
    intro z n hp hmem
    obtain ⟨m, hm, hnm⟩ := longest_max (v := p.drop n ++ z) hmem
    rw [← List.append_assoc, List.take_append_drop] at hm
    rw [List.length_take_of_le hp] at hnm
    exact ⟨m, hm, hnm⟩
  cases hlx : r.longest (p ++ x) with
  | none =>
      cases hly : r.longest (p ++ y) with
      | none => rfl
      | some n =>
          obtain ⟨hp, hmem⟩ := hle hy hly
          obtain ⟨m, hm, -⟩ := hge (z := x) hp hmem
          rw [hlx] at hm
          cases hm
  | some n =>
      obtain ⟨hp, hmem⟩ := hle hx hlx
      obtain ⟨m, hm, hnm⟩ := hge (z := y) hp hmem
      obtain ⟨hp', hmem'⟩ := hle hy hm
      obtain ⟨k, hk, hmk⟩ := hge (z := x) hp' hmem'
      rw [hlx] at hk
      cases hk
      rw [hm, Nat.le_antisymm hnm hmk]

/-! ## First symbols and alphabet -/

/-- Words may begin with `a`. -/
def canStart (a : α) : Regex α → Bool
  | zero => false
  | eps => false
  | cls p => p a
  | seq r s => r.canStart a || (r.nullable && s.canStart a)
  | alt r s => r.canStart a || s.canStart a
  | star r => r.canStart a

/-- Words may contain `a`. -/
def uses (a : α) : Regex α → Bool
  | zero => false
  | eps => false
  | cls p => p a
  | seq r s => r.uses a || s.uses a
  | alt r s => r.uses a || s.uses a
  | star r => r.uses a

theorem canStart_of_mem {r : Regex α} {a : α} {w : List α} (h : a :: w ∈ r.lang) :
    r.canStart a = true := by
  induction r generalizing w with
  | zero => exact absurd h mem_lang_zero
  | eps => cases mem_lang_eps.mp h
  | cls p =>
      obtain ⟨b, hb, hw⟩ := h
      cases hw
      exact hb
  | seq r s ihr ihs =>
      obtain ⟨u, hu, v, hv, huv⟩ := mem_lang_seq.mp h
      simp only [canStart, Bool.or_eq_true, Bool.and_eq_true]
      cases u with
      | nil =>
          obtain rfl : v = a :: w := huv
          exact Or.inr ⟨nil_mem_lang.mp hu, ihs hv⟩
      | cons b u =>
          obtain ⟨rfl, -⟩ := List.cons.inj huv
          exact Or.inl (ihr hu)
  | alt r s ihr ihs =>
      rw [canStart, Bool.or_eq_true]
      exact (mem_lang_alt.mp h).imp ihr ihs
  | star r ih =>
      obtain ⟨u, -, hu, -⟩ := cons_mem_star.mp h
      exact ih hu

theorem uses_of_mem {r : Regex α} {a : α} {w : List α} (h : w ∈ r.lang) (ha : a ∈ w) :
    r.uses a = true := by
  induction r generalizing w with
  | zero => exact absurd h mem_lang_zero
  | eps =>
      rw [mem_lang_eps.mp h] at ha
      cases ha
  | cls p =>
      obtain ⟨b, hb, rfl⟩ := h
      rw [List.mem_singleton.mp ha]
      exact hb
  | seq r s ihr ihs =>
      obtain ⟨u, hu, v, hv, rfl⟩ := mem_lang_seq.mp h
      rw [uses, Bool.or_eq_true]
      exact (List.mem_append.mp ha).imp (ihr hu) (ihs hv)
  | alt r s ihr ihs =>
      rw [uses, Bool.or_eq_true]
      exact (mem_lang_alt.mp h).imp (fun h => ihr h ha) fun h => ihs h ha
  | star r ih =>
      obtain ⟨ws, rfl, hws⟩ := Language.mem_kstar.mp h
      obtain ⟨u, hu, hau⟩ := List.mem_flatten.mp ha
      exact ih (hws u hu) hau

theorem take_past {a b : α} {u v : List α} {n : Nat} (hn : u.length + 1 < n) :
    ∃ k, (a :: u ++ b :: v).take n = a :: (u ++ b :: v.take k) := by
  obtain ⟨k, rfl⟩ : ∃ k, n = k + u.length + 2 := ⟨n - u.length - 2, by omega⟩
  have hu : u.take (k + u.length + 1) = u := List.take_of_length_le (by omega)
  have hk : k + u.length + 1 - u.length = k + 1 := by omega
  refine ⟨k, ?_⟩
  rw [List.cons_append, List.take_succ_cons, List.take_append, hu, hk, List.take_succ_cons]

/-- A prefix longer than `p` goes on with what follows `p`. -/
theorem take_beyond {p x : List α} {n : Nat} (hn : p.length < n) (hle : n ≤ (p ++ x).length) :
    ∃ c z t, x = c :: (z ++ t) ∧ (p ++ x).take n = p ++ c :: z := by
  rw [List.length_append] at hle
  obtain ⟨k, rfl⟩ : ∃ k, n = p.length + (k + 1) := ⟨n - p.length - 1, by omega⟩
  cases x with
  | nil =>
      rw [List.length_nil] at hle
      omega
  | cons c x =>
      refine ⟨c, x.take k, x.drop k, by rw [List.take_append_drop], ?_⟩
      rw [List.take_length_add_append, List.take_succ_cons]

/-- A longer prefix than `a :: u` would begin with `a` and contain the symbol
that follows. -/
theorem not_mem_of_stop {r : Regex α} {a b : α} {u v : List α} {n : Nat}
    (h : r.canStart a = false ∨ r.uses b = false) (hn : u.length + 1 < n) :
    (a :: u ++ b :: v).take n ∉ r.lang := by
  obtain ⟨k, hk⟩ := take_past (a := a) (b := b) (u := u) (v := v) hn
  rw [hk]
  intro hmem
  rcases h with h | h
  · rw [canStart_of_mem hmem] at h
    cases h
  · rw [uses_of_mem hmem (by simp)] at h
    cases h

end Regex

end Lib
