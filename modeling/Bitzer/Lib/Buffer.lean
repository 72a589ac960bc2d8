import Mathlib.Tactic.Common

/-!
# Buffers

A block of memory whose slots may not have been written yet. A store beyond the
end fails, and so does a read that meets a slot never written. `Starts b xs`
says that the first slots hold `xs`; a store right behind them extends it.
-/

namespace Lib

variable {α : Type}

/-- `none` is a slot that was never written. -/
abbrev Buffer (α : Type) := List (Option α)

namespace Buffer

/-- Store consecutive values from a position on. -/
def write : List α → Nat → Buffer α → Option (Buffer α)
  | [], _, b => some b
  | x :: xs, i, b => if i < b.length then write xs (i + 1) (b.set i (some x)) else none

/-- Read the first `n` slots. -/
def read : Nat → Buffer α → Option (List α)
  | 0, _ => some []
  | _ + 1, [] => none
  | _ + 1, none :: _ => none
  | n + 1, some x :: b => (read n b).map (x :: ·)

/-- The first slots hold `xs`. -/
def Starts (b : Buffer α) (xs : List α) : Prop := ∃ rest, b = xs.map some ++ rest

variable {b b' : Buffer α} {xs ys zs : List α}

theorem Starts.nil (b : Buffer α) : b.Starts [] := ⟨b, rfl⟩

theorem Starts.of_append (h : b.Starts (xs ++ ys)) : b.Starts xs := by
  obtain ⟨rest, rfl⟩ := h
  exact ⟨ys.map some ++ rest, by simp⟩

theorem Starts.read (h : b.Starts xs) : b.read xs.length = some xs := by
  obtain ⟨rest, rfl⟩ := h
  induction xs with
  | nil => rfl
  | cons x xs ih =>
      show (Buffer.read xs.length (xs.map some ++ rest)).map (x :: ·) = _
      rw [ih]
      rfl

/-- A store behind what is there. -/
theorem Starts.write (h : b.Starts xs) (hfit : xs.length + ys.length ≤ b.length) :
    ∃ b', b.write ys xs.length = some b' ∧ b'.length = b.length ∧ b'.Starts (xs ++ ys) := by
  induction ys generalizing b xs with
  | nil => exact ⟨b, rfl, rfl, by simpa using h⟩
  | cons y ys ih =>
      rw [List.length_cons] at hfit
      have hset : Starts (b.set xs.length (some y)) (xs ++ [y]) := by
        obtain ⟨rest, rfl⟩ := h
        cases rest with
        | nil =>
            simp only [List.length_append, List.length_map, List.length_nil] at hfit
            omega
        | cons z rest => exact ⟨rest, by simp⟩
      have hlen : (xs ++ [y]).length = xs.length + 1 := List.length_append
      obtain ⟨b', hw, hb', hs⟩ := ih hset (by rw [hlen, List.length_set]; omega)
      refine ⟨b', ?_, by rw [hb', List.length_set], by simpa using hs⟩
      rw [hlen] at hw
      exact (if_pos (by omega)).trans hw

end Buffer

end Lib
