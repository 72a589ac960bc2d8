import Mathlib.Algebra.Ring.Nat
import Mathlib.Order.Monotone.Basic
import Mathlib.Tactic.Common

/-!
# Machines and their runs

A machine is a partial step function: `next s i` is the state after the input
`i`, or `none` where `s` does not take it. `Reach next ok s t` holds when some
run from `s` whose inputs all meet `ok`, each in the state that takes it, ends
in `t`. A `Run` goes on forever.
-/

namespace Lib

variable {σ ι : Type}

/-- The state after a list of inputs. -/
def runFrom (next : σ → ι → Option σ) : σ → List ι → Option σ
  | s, [] => some s
  | s, i :: is => (next s i).bind fun t => runFrom next t is

/-- Runs whose steps all meet `ok`. -/
inductive Reach (next : σ → ι → Option σ) (ok : σ → ι → Prop) (s : σ) : σ → Prop
  | refl : Reach next ok s s
  | step {t u : σ} {i : ι} : Reach next ok s t → ok t i → next t i = some u → Reach next ok s u

/-- No condition on the steps of a run. -/
def anyInput (_ : σ) (_ : ι) : Prop := True

/-- The machine that takes the steps that meet `ok` only. -/
def guarded (next : σ → ι → Option σ) (ok : σ → ι → Prop) [∀ s i, Decidable (ok s i)] :
    σ → ι → Option σ := fun s i => if ok s i then next s i else none

section
variable {next : σ → ι → Option σ} {ok ok' : σ → ι → Prop} {s t u : σ} {P : σ → Prop}

/-- What holds at the start and is kept by every step of the run holds at its
end. -/
theorem Reach.invariant (h : Reach next ok s t) (hs : P s)
    (hstep : ∀ t i u, Reach next ok s t → P t → ok t i → next t i = some u → P u) : P t := by
  induction h with
  | refl => exact hs
  | step ht hi hn ih => exact hstep _ _ _ ht ih hi hn

theorem Reach.trans (h : Reach next ok s t) (h' : Reach next ok t u) : Reach next ok s u := by
  induction h' with
  | refl => exact h
  | step _ hi hn ih => exact .step ih hi hn

theorem Reach.mono (h : Reach next ok s t) (hok : ∀ t i, ok t i → ok' t i) :
    Reach next ok' s t := by
  induction h with
  | refl => exact .refl
  | step _ hi hn ih => exact .step ih (hok _ _ hi) hn

theorem Reach.any (h : Reach next ok s t) : Reach next anyInput s t :=
  h.mono fun _ _ _ => trivial

theorem Reach.of_runFrom {is : List ι} (h : runFrom next s is = some t) :
    Reach next anyInput s t := by
  induction is generalizing s with
  | nil =>
      cases h
      exact .refl
  | cons i is ih =>
      obtain ⟨u, hu, hr⟩ := Option.bind_eq_some_iff.mp h
      exact (Reach.step .refl trivial hu).trans (ih hr)

theorem guarded_eq_some_iff [∀ s i, Decidable (ok s i)] {i : ι} :
    guarded next ok s i = some t ↔ ok s i ∧ next s i = some t := by
  unfold guarded
  split
  · rename_i h
    exact (and_iff_right h).symm
  · rename_i h
    exact iff_of_false nofun fun hn => h hn.1

theorem Reach.of_guarded [∀ s i, Decidable (ok s i)] {is : List ι}
    (h : runFrom (guarded next ok) s is = some t) : Reach next ok s t := by
  induction is generalizing s with
  | nil =>
      cases h
      exact .refl
  | cons i is ih =>
      obtain ⟨u, hu, hr⟩ := Option.bind_eq_some_iff.mp h
      obtain ⟨hi, hn⟩ := guarded_eq_some_iff.mp hu
      exact (Reach.step .refl hi hn).trans (ih hr)

/-- A machine that another follows step by step, refusals included, is followed
along every run. -/
theorem runFrom_map {ρ : Type} {next' : ρ → ι → Option ρ} {f : σ → ρ}
    (hstep : ∀ t i, Reach next anyInput s t → (next t i).map f = next' (f t) i) (is : List ι) :
    (runFrom next s is).map f = runFrom next' (f s) is := by
  induction is generalizing s with
  | nil => rfl
  | cons i is ih =>
      show ((next s i).bind fun t => runFrom next t is).map f = (next' (f s) i).bind _
      rw [← hstep s i .refl]
      cases hn : next s i with
      | none => rfl
      | some t => exact ih fun u j hu => hstep u j ((Reach.step .refl trivial hn).trans hu)

/-- A potential: each step takes what it costs out of the measure, into which it may
pay. Along a run the costs are covered by the measure at its start and by what was
paid in. -/
theorem runFrom_potential {μ : σ → Nat} {cost pay : ι → Nat} {is : List ι}
    (hstep : ∀ s i t, P s → next s i = some t → P t ∧ cost i + μ t ≤ μ s + pay i) (hs : P s)
    (h : runFrom next s is = some t) :
    P t ∧ (is.map cost).sum + μ t ≤ μ s + (is.map pay).sum := by
  induction is generalizing s with
  | nil =>
      cases h
      exact ⟨hs, Nat.le_of_eq (Nat.add_comm _ _)⟩
  | cons i is ih =>
      obtain ⟨u, hu, hr⟩ := Option.bind_eq_some_iff.mp h
      obtain ⟨hPu, hcost⟩ := hstep s i u hs hu
      obtain ⟨hPt, hrest⟩ := ih hPu hr
      refine ⟨hPt, ?_⟩
      rw [List.map_cons, List.sum_cons, List.map_cons, List.sum_cons]
      omega

/-! ## Runs without end -/

/-- A run that goes on forever. -/
structure Run (next : σ → ι → Option σ) where
  state : Nat → σ
  input : Nat → ι
  step : ∀ n, next (state n) (input n) = some (state (n + 1))

theorem Run.reach (r : Run next) (n : Nat) : Reach next anyInput (r.state 0) (r.state n) := by
  induction n with
  | zero => exact .refl
  | succ n ih => exact .step ih trivial (r.step n)

/-- A run that stays in `P`, where every state of `P` has a step into `P` that
meets `R`. -/
theorem exists_run {R : σ → ι → σ → Prop}
    (hstep : ∀ s, P s → ∃ i t, next s i = some t ∧ R s i t ∧ P t) (hs : P s) :
    ∃ r : Run next, r.state 0 = s ∧
      ∀ n, P (r.state n) ∧ R (r.state n) (r.input n) (r.state (n + 1)) := by
  obtain ⟨i, -⟩ := hstep s hs
  have : Nonempty ι := ⟨i⟩
  choose! f g hfg using hstep
  have hP : ∀ n, P (g^[n] s) := by
    intro n
    induction n with
    | zero => exact hs
    | succ n ih =>
        rw [Function.iterate_succ_apply']
        exact (hfg _ ih).2.2
  have hrun : ∀ n, next (g^[n] s) (f (g^[n] s)) = some (g^[n + 1] s) := by
    intro n
    rw [Function.iterate_succ_apply']
    exact (hfg _ (hP n)).1
  refine ⟨⟨fun n => g^[n] s, fun n => f (g^[n] s), hrun⟩, rfl, fun n => ⟨hP n, ?_⟩⟩
  show R (g^[n] s) _ (g^[n + 1] s)
  rw [Function.iterate_succ_apply']
  exact (hfg _ (hP n)).2.1

/-- A measure that no step raises is not lowered again and again. -/
theorem not_fair_of_measure {sched : Nat → Prop} {μ : Nat → Nat}
    (hstep : ∀ n, μ (n + 1) ≤ μ n ∧ (sched n → μ (n + 1) < μ n)) :
    ¬∀ n, ∃ m, n ≤ m ∧ sched m := by
  intro hfair
  have hanti : Antitone μ := antitone_nat_of_succ_le fun n => (hstep n).1
  have hbelow : ∀ k n, μ n = k → False := by
    intro k
    induction k using Nat.strong_induction_on with
    | _ k ih =>
      rintro n rfl
      obtain ⟨m, hm, hsched⟩ := hfair n
      have hlt : μ (m + 1) < μ n := lt_of_lt_of_le ((hstep m).2 hsched) (hanti hm)
      exact ih _ hlt (m + 1) rfl
  exact hbelow _ 0 rfl

end

end Lib
