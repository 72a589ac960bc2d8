import Mathlib.Data.List.GetD

/-!
# Descriptor tables

What each file descriptor of a process is open on. `open` takes the lowest one
that is free; `redirect` is the usual way to put one file on the standard
descriptors: open it, `dup2` it onto each of them, close it again.
-/

namespace Lib

/-- The descriptors from 0 on; those beyond the list are closed. -/
structure Fds (α : Type) where
  slots : List (Option α)
  deriving DecidableEq

namespace Fds

variable {α : Type} {t : Fds α} {a : α} {i j m n fd : Nat} {v : Option α}

def get (t : Fds α) (n : Nat) : Option α := t.slots.getD n none

def set (t : Fds α) (n : Nat) (v : Option α) : Fds α :=
  ⟨(t.slots ++ List.replicate (n + 1 - t.slots.length) none).set n v⟩

theorem get_set : (t.set n v).get m = if m = n then v else t.get m := by
  have hlen : n < (t.slots ++ List.replicate (n + 1 - t.slots.length) none).length := by
    rw [List.length_append, List.length_replicate]
    omega
  show ((t.slots ++ List.replicate (n + 1 - t.slots.length) none).set n v).getD m none = _
  rw [List.getD_eq_getElem?_getD]
  by_cases hm : m = n
  · rw [if_pos hm, hm, List.getElem?_set_self hlen]
    rfl
  · rw [if_neg hm, List.getElem?_set_ne (Ne.symm hm), ← List.getD_eq_getElem?_getD]
    by_cases hlt : m < t.slots.length
    · rw [List.getD_append _ _ _ _ hlt]
      rfl
    · have hge : t.slots.length ≤ m := Nat.not_lt.mp hlt
      rw [List.getD_append_right _ _ _ _ hge, get, List.getD_eq_default _ _ hge]
      simp only [List.getD_eq_getElem?_getD, List.getElem?_replicate]
      split <;> rfl

@[simp] theorem get_set_self : (t.set n v).get n = v := by rw [get_set, if_pos rfl]

theorem get_set_of_ne (h : m ≠ n) : (t.set n v).get m = t.get m := by rw [get_set, if_neg h]

/-- The descriptor that `open` returns. -/
def lowestFree (t : Fds α) : Nat := t.slots.findIdx Option.isNone

theorem get_lowestFree : t.get t.lowestFree = none := by
  rw [get, List.getD_eq_getElem?_getD]
  by_cases h : t.lowestFree < t.slots.length
  · have hnone := List.findIdx_getElem (w := h)
    rw [List.getElem?_eq_getElem h]
    exact Option.isNone_iff_eq_none.mp hnone
  · rw [List.getElem?_eq_none (Nat.not_lt.mp h)]
    rfl

theorem get_of_lt_lowestFree (h : m < t.lowestFree) : t.get m ≠ none := by
  have hlt : m < t.slots.length := Nat.lt_of_lt_of_le h List.findIdx_le_length
  have hnot := List.not_of_lt_findIdx h
  rw [get, List.getD_eq_getElem _ _ hlt]
  intro hnone
  rw [hnone] at hnot
  cases hnot

theorem lowestFree_le (h : t.get m = none) : t.lowestFree ≤ m :=
  Nat.not_lt.mp fun hlt => get_of_lt_lowestFree hlt h

/-- `open`, where it succeeds. -/
def openAs (t : Fds α) (a : α) : Fds α := t.set t.lowestFree (some a)

def close (t : Fds α) (n : Nat) : Fds α := t.set n none

def dup2 (t : Fds α) (i j : Nat) : Fds α := t.set j (t.get i)

theorem get_openAs : (t.openAs a).get m = if m = t.lowestFree then some a else t.get m := get_set

theorem le_lowestFree_iff : n ≤ t.lowestFree ↔ ∀ m < n, t.get m ≠ none := by
  constructor
  · intro h m hm
    exact get_of_lt_lowestFree (Nat.lt_of_lt_of_le hm h)
  · intro h
    exact Nat.not_lt.mp fun hlt => h _ hlt get_lowestFree

/-- The descriptors below `n` are open after an `open` if and only if at most
one of them was closed. -/
theorem openAs_open_iff : (∀ m < n, (t.openAs a).get m ≠ none) ↔
    ∀ i < n, ∀ j < n, t.get i = none → t.get j = none → i = j := by
  constructor
  · intro h
    have hfree : ∀ i < n, t.get i = none → i = t.lowestFree := by
      intro i hi hnone
      refine Decidable.by_contra fun hne => ?_
      exact h i hi (by rw [get_openAs, if_neg hne, hnone])
    intro i hi j hj hni hnj
    rw [hfree i hi hni, hfree j hj hnj]
  · intro h m hm hnone
    rw [get_openAs] at hnone
    split at hnone
    · cases hnone
    · rename_i hne
      have hle := lowestFree_le hnone
      exact hne (h m hm _ (by omega) hnone get_lowestFree)

/-- A file that is opened and closed leaves no trace. -/
theorem get_openAs_close : ((t.openAs a).close t.lowestFree).get m = t.get m := by
  rw [close, get_set]
  split
  · rename_i h
    rw [h, get_lowestFree]
  · rename_i h
    rw [openAs, get_set_of_ne h]

/-! ## Redirection -/

/-- `dup2` of `fd` onto one descriptor after the other, up to the first failure;
onto itself it cannot fail. -/
def dupAll (ok : Nat → Bool) (fd : Nat) : List Nat → Fds α → Bool × Fds α
  | [], t => (true, t)
  | i :: is, t => if i = fd ∨ ok i = true then dupAll ok fd is (t.dup2 fd i) else (false, t)

/-- The standard descriptors. -/
def std : List Nat := [0, 1, 2]

/-- The file on the standard descriptors, and whether every `dup2` succeeded. -/
def redirect (ok : Nat → Bool) (a : α) (t : Fds α) : Bool × Fds α :=
  let r := dupAll ok t.lowestFree std (t.openAs a)
  (r.1, r.2.close t.lowestFree)

theorem get_dupAll {ok : Nat → Bool} {is : List Nat} :
    (dupAll ok fd is t).2.get m =
      if m ∈ is.takeWhile (fun i => decide (i = fd) || ok i) then t.get fd else t.get m := by
  induction is generalizing t with
  | nil => rfl
  | cons i is ih =>
      rw [dupAll]
      by_cases hi : i = fd ∨ ok i = true
      · have hfd : (t.dup2 fd i).get fd = t.get fd := by
          rw [dup2, get_set]
          split <;> rfl
        rw [if_pos hi, ih, hfd, List.takeWhile_cons_of_pos (by simpa using hi)]
        by_cases hm : m = i
        · rw [if_pos (List.mem_cons.mpr (Or.inl hm)), hm, dup2, get_set_self, ite_self]
        · rw [dup2, get_set_of_ne hm]
          simp only [List.mem_cons, hm, false_or]
      · rw [if_neg hi, List.takeWhile_cons_of_neg (by simpa using hi)]
        rfl

theorem mem_takeWhile_range' {p : Nat → Bool} {k : Nat} :
    m ∈ (List.range' k n).takeWhile p ↔
      (k ≤ m ∧ m < k + n) ∧ ∀ i, k ≤ i → i ≤ m → p i = true := by
  induction n generalizing k with
  | zero =>
      refine iff_of_false (by simp) fun h => ?_
      omega
  | succ n ih =>
      rw [List.range'_succ]
      by_cases hk : p k = true
      · rw [List.takeWhile_cons_of_pos hk, List.mem_cons, ih]
        constructor
        · rintro (rfl | ⟨hm, hall⟩)
          · refine ⟨by omega, fun i hi hm => ?_⟩
            rwa [Nat.le_antisymm hm hi]
          · refine ⟨by omega, fun i hi him => ?_⟩
            rcases Nat.eq_or_lt_of_le hi with rfl | hi
            · exact hk
            · exact hall i hi him
        · rintro ⟨hm, hall⟩
          rcases Nat.eq_or_lt_of_le hm.1 with rfl | hlt
          · exact Or.inl rfl
          · exact Or.inr ⟨by omega, fun i hi => hall i (by omega)⟩
      · rw [List.takeWhile_cons_of_neg hk]
        refine iff_of_false (by simp) fun h => hk (h.2 k (Nat.le_refl _) h.1.1)

theorem dupAll_fst {ok : Nat → Bool} {is : List Nat} :
    (dupAll ok fd is t).1 = true ↔ ∀ i ∈ is, i = fd ∨ ok i = true := by
  induction is generalizing t with
  | nil => simp [dupAll]
  | cons i is ih =>
      rw [dupAll, List.forall_mem_cons]
      split
      · rename_i hi
        rw [ih, and_iff_right hi]
      · rename_i hi
        exact iff_of_false Bool.false_ne_true fun h => hi h.1

theorem redirect_fst {ok : Nat → Bool} :
    (redirect ok a t).1 = true ↔ ∀ i ∈ std, i = t.lowestFree ∨ ok i = true :=
  dupAll_fst

/-- Where the standard descriptors are open, those whose turn comes are on the
file afterwards, and the others are as they were. Where one of them is closed,
the file is opened there, and closed at the end. -/
theorem get_redirect {ok : Nat → Bool} (hm : m < 3) :
    (redirect ok a t).2.get m =
      if m = t.lowestFree then none
      else if ∀ i ≤ m, i = t.lowestFree ∨ ok i = true then some a else t.get m := by
  rw [redirect, close, get_set, get_dupAll, get_openAs, get_openAs, if_pos rfl]
  split
  · rfl
  · refine if_congr ?_ rfl rfl
    rw [show std = List.range' 0 3 from rfl, mem_takeWhile_range']
    simp [hm]

/-- A redirection, whether it succeeds or not, has no effect on other descriptors. -/
theorem get_redirect_of_le {ok : Nat → Bool} (hm : 3 ≤ m) :
    (redirect ok a t).2.get m = t.get m := by
  have hstd : m ∉ std.takeWhile (fun i => decide (i = t.lowestFree) || ok i) := fun h => by
    have hmem := (List.takeWhile_sublist _).subset h
    simp only [std, List.mem_cons, List.not_mem_nil, or_false] at hmem
    omega
  rw [redirect, close, get_set]
  split
  · rename_i hfree
    rw [hfree, get_lowestFree]
  · rename_i hne
    rw [get_dupAll, if_neg hstd, get_openAs, if_neg hne]

/-- All standard descriptors are on the file if and only if none of them was
closed, and each was given it or had it. -/
theorem redirect_iff {ok : Nat → Bool} :
    (∀ m < 3, (redirect ok a t).2.get m = some a) ↔
      (∀ m < 3, t.get m ≠ none) ∧ ∀ m < 3, (∀ i ≤ m, ok i = true) ∨ t.get m = some a := by
  by_cases hfree : 3 ≤ t.lowestFree
  · rw [and_iff_right (le_lowestFree_iff.mp hfree)]
    refine forall_congr' fun m => forall_congr' fun hm => ?_
    have hne : ∀ i ≤ m, i ≠ t.lowestFree := fun i hi => by omega
    rw [get_redirect hm, if_neg (hne m (Nat.le_refl _))]
    have hturn : (∀ i ≤ m, i = t.lowestFree ∨ ok i = true) ↔ ∀ i ≤ m, ok i = true :=
      forall_congr' fun i => forall_congr' fun hi => or_iff_right (hne i hi)
    rw [if_congr hturn rfl rfl]
    split
    · rename_i h
      exact iff_of_true rfl (Or.inl h)
    · rename_i h
      exact (or_iff_right h).symm
  · -- the file was opened on one of them
    refine iff_of_false (fun h => ?_) fun h => hfree (le_lowestFree_iff.mpr h.1)
    have hlost := h _ (Nat.not_le.mp hfree)
    rw [get_redirect (Nat.not_le.mp hfree), if_pos rfl] at hlost
    cases hlost

end Fds

end Lib
