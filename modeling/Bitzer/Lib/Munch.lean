import Mathlib.Tactic.Common

/-!
# Longest match

How a generated scanner chooses: among the rules that match a prefix the one
that matches the longest, and the first of these. `scanFrom` cuts a whole text
into lexemes; it is a recursion on the text that counts down the rest of the
lexeme it is in, so that it needs no measure and computes.
-/

namespace Lib

variable {α β κ ρ : Type}

/-- The first of the rules whose match is the longest, with its length. -/
def firstLongest (len : ρ → Option Nat) : List ρ → Option (ρ × Nat)
  | [] => none
  | r :: rs =>
      match len r, firstLongest len rs with
      | none, best => best
      | some n, none => some (r, n)
      | some n, some (q, m) => if n < m then some (q, m) else some (r, n)

theorem firstLongest_mem {len : ρ → Option Nat} {rs : List ρ} {r : ρ} {n : Nat}
    (h : firstLongest len rs = some (r, n)) : r ∈ rs ∧ len r = some n := by
  induction rs with
  | nil => cases h
  | cons q rs ih =>
      simp only [firstLongest] at h
      split at h
      · obtain ⟨hr, hn⟩ := ih h
        exact ⟨List.mem_cons_of_mem _ hr, hn⟩
      · cases h
        exact ⟨List.mem_cons_self, ‹_›⟩
      · rename_i m q' m' hq hbest
        split at h
        · cases h
          obtain ⟨hr, hn⟩ := ih hbest
          exact ⟨List.mem_cons_of_mem _ hr, hn⟩
        · cases h
          exact ⟨List.mem_cons_self, hq⟩

theorem firstLongest_congr {len len' : ρ → Option Nat} {rs : List ρ}
    (h : ∀ q ∈ rs, len q = len' q) : firstLongest len rs = firstLongest len' rs := by
  induction rs with
  | nil => rfl
  | cons p rs ih =>
      obtain ⟨hp, hrs⟩ := List.forall_mem_cons.mp h
      rw [firstLongest, firstLongest, hp, ih hrs]

/-- A rule that beats those before it and is not beaten by those after it. -/
theorem firstLongest_eq {len : ρ → Option Nat} {pre post : List ρ} {r : ρ} {n : Nat}
    (hr : len r = some n) (hpre : ∀ q ∈ pre, ∀ m, len q = some m → m < n)
    (hpost : ∀ q ∈ post, ∀ m, len q = some m → m ≤ n) :
    firstLongest len (pre ++ r :: post) = some (r, n) := by
  induction pre with
  | nil =>
      rw [List.nil_append, firstLongest, hr]
      cases hbest : firstLongest len post with
      | none => rfl
      | some best =>
          obtain ⟨q, m⟩ := best
          obtain ⟨hq, hm⟩ := firstLongest_mem hbest
          exact if_neg (Nat.not_lt.mpr (hpost q hq m hm))
  | cons p pre ih =>
      rw [List.cons_append, firstLongest, ih fun q hq => hpre q (List.mem_cons_of_mem _ hq)]
      cases hp : len p with
      | none => rfl
      | some m => exact if_pos (hpre p List.mem_cons_self m hp)

theorem firstLongest_eq_none {len : ρ → Option Nat} {rs : List ρ} :
    firstLongest len rs = none ↔ ∀ q ∈ rs, len q = none := by
  induction rs with
  | nil => simp [firstLongest]
  | cons p rs ih =>
      rw [firstLongest, List.forall_mem_cons, ← ih]
      split
      · rename_i hp
        simp [hp]
      · rename_i n hp hbest
        simp [hp]
      · rename_i n q m hp hbest
        simp [hp]
        split <;> simp

/-- The winner beats the rules before it and is not beaten. -/
theorem firstLongest_some {len : ρ → Option Nat} {rs : List ρ} {r : ρ} {n : Nat}
    (h : firstLongest len rs = some (r, n)) :
    ∃ pre post, rs = pre ++ r :: post ∧ len r = some n ∧
      (∀ q ∈ pre, ∀ m, len q = some m → m < n) ∧ ∀ q ∈ rs, ∀ m, len q = some m → m ≤ n := by
  induction rs generalizing r n with
  | nil => cases h
  | cons p rs ih =>
      simp only [firstLongest] at h
      split at h
      · rename_i hp
        obtain ⟨pre, post, rfl, hr, hpre, hall⟩ := ih h
        refine ⟨p :: pre, post, rfl, hr, List.forall_mem_cons.mpr ⟨?_, hpre⟩,
          List.forall_mem_cons.mpr ⟨?_, hall⟩⟩
        · intro m hm
          rw [hp] at hm
          cases hm
        · intro m hm
          rw [hp] at hm
          cases hm
      · rename_i k hp hbest
        cases h
        refine ⟨[], rs, rfl, hp, by simp, List.forall_mem_cons.mpr ⟨?_, ?_⟩⟩
        · intro m hm
          rw [hp] at hm
          cases hm
          exact Nat.le_refl _
        · intro q hq m hm
          rw [firstLongest_eq_none.mp hbest q hq] at hm
          cases hm
      · rename_i k q m hp hbest
        split at h
        · rename_i hlt
          cases h
          obtain ⟨pre, post, rfl, hr, hpre, hall⟩ := ih hbest
          refine ⟨p :: pre, post, rfl, hr, List.forall_mem_cons.mpr ⟨?_, hpre⟩,
            List.forall_mem_cons.mpr ⟨?_, hall⟩⟩
          · intro m hm
            rw [hp] at hm
            cases hm
            exact hlt
          · intro m hm
            rw [hp] at hm
            cases hm
            exact Nat.le_of_lt hlt
        · rename_i hge
          cases h
          obtain ⟨pre, post, rfl, hr, hpre, hall⟩ := ih hbest
          refine ⟨[], _, rfl, hp, by simp, List.forall_mem_cons.mpr ⟨?_, ?_⟩⟩
          · intro m hm
            rw [hp] at hm
            cases hm
            exact Nat.le_refl _
          · intro q' hq' m' hm'
            exact Nat.le_trans (hall q' hq' m' hm') (Nat.not_lt.mp hge)

/-- The lexemes of a text of which `skip` symbols belong to a lexeme already
found. `step` gives the length of the lexeme at the start of a text, the context
it leaves and what becomes of it. -/
def scanFrom (step : κ → List α → Nat × κ × β) : Nat → κ → List α → List β
  | _, _, [] => []
  | skip + 1, ctx, _ :: s => scanFrom step skip ctx s
  | 0, ctx, a :: s =>
      let (len, ctx', out) := step ctx (a :: s)
      out :: scanFrom step (len - 1) ctx' s

theorem scanFrom_skip (step : κ → List α → Nat × κ × β) (ctx : κ) (u s : List α) :
    scanFrom step u.length ctx (u ++ s) = scanFrom step 0 ctx s := by
  induction u with
  | nil => rfl
  | cons a u ih => exact ih

/-- One lexeme. -/
theorem scanFrom_step {step : κ → List α → Nat × κ × β} {ctx ctx' : κ} {w s : List α} {out : β}
    (hw : w ≠ []) (h : step ctx (w ++ s) = (w.length, ctx', out)) :
    scanFrom step 0 ctx (w ++ s) = out :: scanFrom step 0 ctx' s := by
  cases w with
  | nil => exact absurd rfl hw
  | cons a u =>
      rw [List.cons_append] at h ⊢
      rw [scanFrom, h]
      exact congrArg _ (scanFrom_skip step ctx' u s)

end Lib
