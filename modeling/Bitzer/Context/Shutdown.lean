import Bitzer.Context.Restart
import Bitzer.Context.Signals

/-!
# Starts after a termination request

The flags are looked at when `context_event_handler` has returned, so a child
that is reaped in the same wake-up is still replaced. That is all: nothing else
is started once a request is recorded, and nothing at all once the callback
sees it.
-/

namespace Bitzer

open Lib

variable {τ : Type}

/-- A call of `fork` in `task_run`. -/
def Event.forked : Event τ → Option (τ × Option Int32)
  | .fork t answer => some (t, answer)
  | _ => none

/-- Once a request is recorded, no run forks any more. -/
def NoStartAfterRequest [DecidableEq τ] (E : Env τ) : Prop :=
  ∀ σ σ', Reach (next E.cfg) anyInput (init E) σ → σ.stop = true →
    Reach (next E.cfg) anyInput σ σ' →
      σ'.trace.filterMap Event.forked = σ.trace.filterMap Event.forked

/-- On the way out. -/
def Pc.ending : Pc τ → Bool
  | .callback => true
  | .contextClose _ => true
  | .postRun => true
  | .exiting _ => true
  | .exited => true
  | .handlerFault => true
  | .treeFault => true
  | _ => false

instance (σ : State τ) (i : Input) [DecidableEq τ] : Decidable (noEarlyStop σ i) :=
  match i with
  | .deliver s => decidable_of_iff (s.stops = true → σ.pc ≠ .setCallback ∧ σ.pc ≠ .sigmask)
      ⟨fun h _ hs => by cases hs; exact h, fun h => h s rfl⟩
  | .sys _ | .childExit _ | .adopt _ | .raise _ => isTrue (by simp [noEarlyStop])

section
variable [DecidableEq τ] {E : Env τ} {σ σ' : State τ} {i : Input}

/-- Requests are recorded by the handler only, and stay recorded. -/
theorem stop_iff (hstep : Step E.cfg σ i σ') :
    σ'.stop = true ↔ σ.stop = true ∨ ∃ g, i = .deliver g ∧ g.stops = true := by
  cases hstep with
  | goto | load | assign | setCallback | mask | enter | close | post | childExit | adopt | raise
  | forkFailed =>
      refine ⟨Or.inl, fun h => h.resolve_right ?_⟩
      rintro ⟨g, hi, -⟩
      cases hi
  | create =>
      unfold contextCreate
      split <;> simp [State.stop]
  | start => simp [(sameControl_taskRun _ _ _).stop]
  | forked => simp [(sameControl_taskRunForked ..).stop]
  | reap => simp [(sameControl_reaped ..).stop]
  | deliver => simp [stop_deliver]

/-- On the way to the exit. -/
structure Shutting (E : Env τ) (σ : State τ) : Prop where
  reach : Reach (next E.cfg) anyInput (init E) σ
  stop : σ.stop = true
  stopping : σ.pc.stopping = true

/-- The process stays on its way out. -/
theorem shutting_step (h : Shutting E σ) (hn : next E.cfg σ i = some σ') : Shutting E σ' := by
  have hstep := step_of_next hn
  have hok : noEarlyStop σ i := by
    rintro s - -
    have hst := h.stopping
    constructor <;> intro hp <;> simp [hp, Pc.stopping] at hst
  have hs := (stop_iff hstep).mpr (Or.inl h.stop)
  exact ⟨.step h.reach trivial hn, hs,
    stop_step (ctl_reach h.reach) (fun _ => h.stopping) hok hstep hs⟩

/-- A request was recorded on the way to `σ`, and not only between `context = ctx` and
the mask. -/
def Requested (E : Env τ) (σ : State τ) : Prop :=
  ∃ σ₁ g σ₂, Reach (next E.cfg) anyInput (init E) σ₁ ∧ g.stops = true ∧
    noEarlyStop σ₁ (.deliver g) ∧ next E.cfg σ₁ (.deliver g) = some σ₂ ∧
    Reach (next E.cfg) anyInput σ₂ σ

theorem Requested.shutting (h : Requested E σ) : Shutting E σ := by
  obtain ⟨σ₁, g, σ₂, hr, hg, hok, hn, h⟩ := h
  refine h.invariant (P := Shutting E) ⟨hr.step trivial hn, ?_, ?_⟩
    fun _ _ _ _ hs _ hn => shutting_step hs hn
  · exact (stop_iff (step_of_next hn)).mpr (Or.inr ⟨g, rfl, hg⟩)
  · cases step_of_next hn with
    | deliver halive _ hblocked => exact stopping_deliver (ctl_reach hr) halive hblocked hg hok

/-- In a run without a request in that window, every recorded one is meant. -/
theorem requested_of_stop (h : Reach (next E.cfg) noEarlyStop (init E) σ) (hs : σ.stop = true) :
    Requested E σ := by
  induction h with
  | refl => cases hs
  | @step t u i ht hok hn ih =>
      by_cases hst : t.stop = true
      · obtain ⟨σ₁, g, σ₂, hr, hg, hok, hn', h⟩ := ih hst
        exact ⟨σ₁, g, σ₂, hr, hg, hok, hn', h.step trivial hn⟩
      · obtain ⟨g, rfl, hg⟩ := ((stop_iff (step_of_next hn)).mp hs).resolve_left hst
        exact ⟨t, g, u, ht.any, hg, hok, hn, .refl⟩

/-- In the `waitpid` loop, the task at its `fork` is the one whose child was
just reaped. -/
def ForksReaped (σ : State τ) : Prop :=
  ∀ t, σ.pc = .fork t .restartTask → ∃ p older, σ.trace = .taskRun t :: .reap p (some t) :: older

theorem forksReaped_step (h : ForksReaped σ) (hp : Progress E.cfg σ σ') : ForksReaped σ' := by
  intro u hu
  cases hp with
  | stay _ htr hpc =>
      rcases hpc with hpc | ⟨-, hpc⟩ | hpc
      · rw [htr]
        exact h u (hpc ▸ hu)
      · rw [hpc] at hu
        cases hu
      · rw [hpc] at hu
        cases hu
  | move _ _ hf => exact absurd hu (hf u _)
  | mask _ _ _ hpc | enter _ _ _ hpc | forget _ _ _ _ _ hpc =>
      rw [hpc] at hu
      cases hu
  | start _ _ _ hpc =>
      rw [hpc] at hu
      split at hu <;> cases hu
  | @forked _ caller _ _ _ _ hpc | @failed _ caller _ _ _ hpc =>
      rw [hpc] at hu
      cases caller <;> cases hu
  | @restart c t _ _ _ _ htr hpc =>
      rw [hpc] at hu
      split at hu
      · cases hu
        exact ⟨_, _, htr⟩
      · cases hu

theorem forksReaped_reach (hr : Reach (next E.cfg) anyInput (init E) σ) : ForksReaped σ :=
  hr.invariant (P := ForksReaped) (fun _ h => by cases h)
    fun _ _ _ hr h _ hn => forksReaped_step h (progress_of_next hr hn)

/-- The callback acts on a recorded request, and what follows starts nothing. -/
theorem ending_step {tr : List (Event τ)} (hctl : Ctl E σ) (hs : σ.stop = true)
    (hpc : σ.pc.ending = true) (htr : σ.trace = tr) (hstep : Step E.cfg σ i σ') :
    σ'.pc.ending = true ∧ σ'.trace = tr := by
  cases hstep with
  | goto hg =>
      refine ⟨?_, htr⟩
      cases hg with
      | pidfile hp | pidfileFailed hp | createFailed hp | initFailed hp | maskFailed hp
      | started hp | unexpected hp | noChild hp | drained hp | childless hp =>
          simp [hp, Pc.ending] at hpc
      | callback hp hctx =>
          have hst := stopping_goto hctl (.callback hp hctx) hs (by rw [hp]; rfl)
          revert hst
          show (callbackPc _ σ).stopping = true → (callbackPc _ σ).ending = true
          unfold callbackPc
          split
          · split
            · exact fun _ => rfl
            · split
              · exact fun _ => rfl
              · exact fun h => by cases h
          · exact fun h => by cases h
      | exit => rfl
  | create hp | load hp | assign hp | setCallback hp | mask hp | start hp | forked hp
  | forkFailed hp | enter hp | reap hp => simp [hp, Pc.ending] at hpc
  | close | post => exact ⟨rfl, htr⟩
  | childExit | adopt | raise => exact ⟨hpc, htr⟩
  | @deliver s =>
      refine ⟨?_, by simpa using htr⟩
      rcases pc_deliver s σ with hpc' | ⟨hp, -⟩ | hpc'
      · rwa [hpc']
      · simp [hp, Pc.ending] at hpc
      · rw [hpc']
        rfl

/-- What may still be started after a request that is not recorded before the
mask is set: the replacement of a child that the `waitpid` loop of the same
wake-up has just reaped. -/
structure StopsSoon (E : Env τ) (σ : State τ) : Prop where
  pselect : σ.pc ≠ .pselect
  startTasks : ∀ rest, σ.pc ≠ .startTasks rest
  fork : ∀ t caller, σ.pc = .fork t caller →
    caller = .restartTask ∧ ∃ p older, σ.trace = .taskRun t :: .reap p (some t) :: older
  callback : σ.pc = .callback → ∀ σ', Reach (next E.cfg) anyInput σ σ' → σ'.trace = σ.trace

theorem Shutting.stopsSoon (h : Shutting E σ) : StopsSoon E σ := by
  have hstopping := h.stopping
  refine ⟨fun hp => ?_, fun rest hp => ?_, fun t caller hp => ?_, fun hp σ' h' => ?_⟩
  · simp [hp, Pc.stopping] at hstopping
  · simp [hp, Pc.stopping] at hstopping
  · cases caller with
    | startTasks rest => simp [hp, Pc.stopping] at hstopping
    | restartTask => exact ⟨rfl, forksReaped_reach h.reach t hp⟩
  · have hend : σ'.stop = true ∧ σ'.pc.ending = true ∧ σ'.trace = σ.trace :=
      h'.invariant (P := fun σ' => σ'.stop = true ∧ σ'.pc.ending = true ∧ σ'.trace = σ.trace)
        ⟨h.stop, by rw [hp]; rfl, rfl⟩ fun _ _ _ hσ hi _ hn =>
          ⟨(stop_iff (step_of_next hn)).mpr (Or.inl hi.1),
            ending_step (ctl_reach (h.reach.trans hσ)) hi.1 hi.2.1 hi.2.2 (step_of_next hn)⟩
    exact hend.2.2

/-- After a request has been recorded, the process forks to replace children
reaped in the same wake-up only. -/
theorem start_after_request (h : Requested E σ) : StopsSoon E σ := h.shutting.stopsSoon

end

/-- The one start that is left: `oneTask`'s process exits and `SIGTERM` arrives in
one wake-up. -/
theorem start_after_request_oneTask :
    ∃ σ : State Nat, (∃ p older, σ.trace = .taskRun 0 :: .reap p (some 0) :: older) ∧
      σ.pc = .fork 0 .restartTask ∧ σ.stop = true := by
  have hrun : ((runFrom (guarded (next oneTask.cfg) noEarlyStop) (init oneTask)
      [.sys .ok, .sys .ok, .sys .ok, .sys .ok, .sys .ok, .sys .ok, .sys .ok, .sys (.pid 100),
        .sys .ok, .childExit 100, .raise .term, .deliver .term]).bind fun σ₀ =>
          (runFrom (guarded (next oneTask.cfg) noEarlyStop) σ₀
            [.deliver .chld, .sys .ok, .sys (.pid 100)]).map fun σ =>
              σ₀.stop && decide (σ.pc = .fork 0 .restartTask) && σ.stop) = some true := by
    decide +kernel
  obtain ⟨σ₀, hσ₀, hrun⟩ := Option.bind_eq_some_iff.mp hrun
  obtain ⟨σ, hσ, hst⟩ := Option.map_eq_some_iff.mp hrun
  simp only [Bool.and_eq_true, decide_eq_true_eq] at hst
  obtain ⟨⟨-, hpc⟩, hs'⟩ := hst
  have h := start_after_request (requested_of_stop
    ((Reach.of_guarded hσ₀).trans (Reach.of_guarded hσ)) hs')
  exact ⟨σ, (h.fork 0 .restartTask hpc).2, hpc, hs'⟩

/-- In that wake-up a second process is started, which the exit leaves behind. -/
theorem not_noStartAfterRequest : ¬ NoStartAfterRequest oneTask := by
  intro h
  have hrun : ((runFrom (next oneTask.cfg) (init oneTask)
      [.sys .ok, .sys .ok, .sys .ok, .sys .ok, .sys .ok, .sys .ok, .sys .ok, .sys (.pid 100),
        .sys .ok, .childExit 100, .raise .term, .deliver .term]).bind fun σ =>
          (runFrom (next oneTask.cfg) σ
            [.deliver .chld, .sys .ok, .sys (.pid 100), .sys (.pid 101), .sys .zero, .sys .ok]).map
              fun σ' => σ.stop && decide (σ.trace.filterMap Event.forked = [(0, some 100)]) &&
                decide (σ'.trace.filterMap Event.forked = [(0, some 101), (0, some 100)]) &&
                decide (σ'.pc = .contextClose .terminate)) = some true := by
    decide +kernel
  obtain ⟨σ, hσ, hrun⟩ := Option.bind_eq_some_iff.mp hrun
  obtain ⟨σ', hσ', hst⟩ := Option.map_eq_some_iff.mp hrun
  simp only [Bool.and_eq_true, decide_eq_true_eq] at hst
  obtain ⟨⟨⟨hs, hf⟩, hf'⟩, -⟩ := hst
  have := h σ σ' (Reach.of_runFrom hσ) hs (Reach.of_runFrom hσ')
  rw [hf, hf'] at this
  cases this

end Bitzer
