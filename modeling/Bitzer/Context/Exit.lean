import Bitzer.Context.Drain
import Bitzer.Context.Shutdown

/-!
# How soon the process exits

With a request for termination recorded, each step of the process brings it
closer to its exit, but for the exits of children, which keep it in the `waitpid`
loop (`State.exitCost`). It never stops on the way.
-/

namespace Bitzer

open Lib

variable {τ : Type}

/-- The steps of the process to its exit, if no more children exit. -/
def State.exitCost (σ : State τ) : Nat :=
  match σ.pc with
  | .interrupted => 2 * σ.zombies + 6
  | .waitpid => 2 * σ.zombies + 5
  | .fork _ _ => 2 * σ.zombies + 6
  | .callback => 4
  | .contextClose _ => 3
  | .postRun => 2
  | .exiting _ => 1
  | _ => 0

theorem exitCost_le (σ : State τ) : σ.exitCost ≤ 2 * σ.zombies + 6 := by
  unfold State.exitCost
  split <;> omega

/-- What an input costs the process, and what a child's exit costs it. -/
def Input.sysCost (i : Input) : Nat := if i.isSys = true then 1 else 0

def Input.exitPay (i : Input) : Nat := if i.isExit = true then 2 else 0

theorem sum_sysCost (is : List Input) : (is.map Input.sysCost).sum = is.countP Input.isSys := by
  induction is with
  | nil => rfl
  | cons i is ih =>
      rw [List.map_cons, List.sum_cons, ih, List.countP_cons, Input.sysCost, Nat.add_comm]

theorem sum_exitPay (is : List Input) :
    (is.map Input.exitPay).sum = 2 * is.countP Input.isExit := by
  induction is with
  | nil => rfl
  | cons i is ih =>
      rw [List.map_cons, List.sum_cons, ih, List.countP_cons, Input.exitPay]
      split <;> omega

/-- The argument of `exit`. -/
def ExitStatus (σ : State τ) : Prop :=
  ∀ status, σ.pc = .exiting status → status = 1 ∨ status = 2 ∧ σ.bzQuit = true

section
variable [DecidableEq τ] {E : Env τ} {σ σ' : State τ} {i : Input}

omit [DecidableEq τ] in
/-- The callback acts on the request. -/
theorem callbackPc_stop {ctx : Context τ} (hctl : Ctl E σ) (hp : σ.pc = .callback)
    (hctx : σ.ctx = some ctx) (hs : σ.stop = true) :
    callbackPc ctx σ = .exiting 2 ∧ σ.bzQuit = true ∨
      callbackPc ctx σ = .contextClose .terminate := by
  obtain ⟨ctx', hctx', -, hcb, -⟩ := (hctl.running (by rw [hp]; rfl)).ctx
  rw [hctx] at hctx'
  cases hctx'
  unfold callbackPc
  rw [if_pos hcb]
  cases hq : σ.bzQuit with
  | true => exact Or.inl ⟨if_pos rfl, rfl⟩
  | false =>
      have ht : σ.bzTerminate = true := by simpa [State.stop, hq] using hs
      rw [if_neg Bool.false_ne_true, if_pos ht]
      exact Or.inr rfl

omit [DecidableEq τ] in
theorem exitCost_le_of_zombies {k : Nat} (hpc : σ'.pc = σ.pc) (hz : σ'.zombies ≤ σ.zombies + k) :
    σ'.exitCost ≤ σ.exitCost + 2 * k := by
  unfold State.exitCost
  rw [hpc]
  split <;> omega

/-- Every step of the process is one of those it had left. -/
theorem exitCost_step (h : Shutting E σ) (hn : next E.cfg σ i = some σ') :
    i.sysCost + σ'.exitCost ≤ σ.exitCost + i.exitPay := by
  have hctl := ctl_reach h.reach
  have hst := h.stopping
  obtain ⟨⟨es, hi⟩, -⟩ := indexed_reach h.reach
  have hsys : i.sysCost ≤ 1 := by
    unfold Input.sysCost
    split <;> omega
  by_cases hl : σ.pc.reaping = true
  · cases drains_of_next h.reach hl hn with
    | reap hp _ hz hpc =>
        have hle := exitCost_le σ'
        simp only [State.exitCost, hp] at hle ⊢
        omega
    | leave hp _ hz hpc =>
        simp only [State.exitCost, hp, hpc]
        omega
    | fork hp _ hz hpc =>
        simp only [State.exitCost, hp, hpc]
        omega
    | env hi hz hpc =>
        have hle := exitCost_le_of_zombies hpc (Nat.le_of_eq hz)
        unfold Input.sysCost Input.exitPay
        rw [hi, if_neg Bool.false_ne_true]
        split at hle <;> simp_all
  · cases step_of_next hn with
    | goto hg =>
        cases hg with
        | pidfile hp | pidfileFailed hp | createFailed hp | initFailed hp | maskFailed hp
        | started hp | unexpected hp => simp [hp, Pc.stopping] at hst
        | drained hp | childless hp => exact absurd (by rw [hp]; rfl) hl
        | noChild hp | exit hp =>
            simp only [State.exitCost, hp]
            omega
        | callback hp hctx =>
            rcases callbackPc_stop hctl hp hctx h.stop with ⟨hpc, -⟩ | hpc
            · simp only [State.exitCost, hp, hpc]
              omega
            · simp only [State.exitCost, hp, hpc]
              omega
    | create hp | load hp | assign hp | setCallback hp | mask hp | start hp =>
        simp [hp, Pc.stopping] at hst
    | @forked t caller p hp =>
        cases caller with
        | startTasks rest => simp [hp, Pc.stopping] at hst
        | restartTask => exact absurd (by rw [hp]; rfl) hl
    | @forkFailed t caller hp =>
        cases caller with
        | startTasks rest => simp [hp, Pc.stopping] at hst
        | restartTask => exact absurd (by rw [hp]; rfl) hl
    | enter hp =>
        simp only [State.exitCost, State.zombies, hp]
        omega
    | reap hp => exact absurd (by rw [hp]; rfl) hl
    | close hp | post hp =>
        simp only [State.exitCost, hp]
        omega
    | childExit hc he =>
        have hz := zombies_exit hi.kids.nodup hc he
        refine (Nat.zero_add _).le.trans (exitCost_le_of_zombies (k := 1) ?_ ?_)
        · rfl
        · exact hz.le
    | adopt | raise =>
        refine (Nat.zero_add _).le.trans (exitCost_le_of_zombies (k := 0) ?_ ?_)
        · rfl
        · exact Nat.le_refl _
    | @deliver s =>
        refine (Nat.zero_add _).le.trans ?_
        rcases pc_deliver s σ with hpc | ⟨hp, -⟩ | hpc
        · exact exitCost_le_of_zombies (k := 0) hpc (by simp [State.zombies])
        · simp [hp, Pc.stopping] at hst
        · simp [State.exitCost, hpc]

/-- The ways into `exit`. -/
theorem exiting_of_step {status : Nat} (h : Step E.cfg σ i σ') (hpc : σ'.pc = .exiting status) :
    (σ.pc = .postRun ∧ status = 1 ∧ σ'.logOpen = false) ∨
    (σ.pc = .callback ∧ status = 2 ∧ σ'.bzQuit = true) ∨
    σ.pc = .exiting status ∧ (σ.bzQuit = true → σ'.bzQuit = true) ∧ σ'.logOpen = σ.logOpen := by
  cases h with
  | goto hg =>
      cases hg with
      | @callback ctx hp hctx =>
          have hpc : callbackPc ctx σ = .exiting status := hpc
          unfold callbackPc at hpc
          split at hpc
          · split at hpc
            · rename_i hq
              cases hpc
              exact .inr (.inl ⟨hp, rfl, hq⟩)
            · split at hpc <;> cases hpc
          · cases hpc
      | _ => cases hpc
  | post hp =>
      cases hpc
      exact .inl ⟨hp, rfl, rfl⟩
  | create =>
      unfold contextCreate at hpc
      split at hpc <;> cases hpc
  | start =>
      rcases pc_taskRun _ _ σ with hpc' | hpc' <;> rw [hpc'] at hpc <;> cases hpc
  | @forked t caller p =>
      rcases pc_taskRunForked E.cfg caller t p σ with hpc' | hpc' <;> rw [hpc'] at hpc
      · cases caller <;> cases hpc
      · cases hpc
  | @forkFailed t caller => cases caller <;> cases hpc
  | reap hp =>
      rcases pc_reaped E.cfg _ σ hp with ⟨t, hpc'⟩ | hpc' | hpc' <;> rw [hpc'] at hpc <;> cases hpc
  | childExit | adopt | raise => exact .inr (.inr ⟨hpc, id, rfl⟩)
  | @deliver s =>
      rcases pc_deliver s σ with hpc' | ⟨-, hpc'⟩ | hpc' <;> rw [hpc'] at hpc
      · refine .inr (.inr ⟨hpc, fun hq => ?_, by simp⟩)
        simp [hq]
      · cases hpc
      · cases hpc
  | load | assign | setCallback | mask | enter | close => cases hpc

theorem exitStatus_step (h : ExitStatus σ) (hn : next E.cfg σ i = some σ') : ExitStatus σ' := by
  intro status hpc
  obtain ⟨-, hst, -⟩ | ⟨-, hst, hq⟩ | ⟨hp, hq, -⟩ := exiting_of_step (step_of_next hn) hpc
  · exact .inl hst
  · exact .inr ⟨hst, hq⟩
  · exact (h status hp).imp_right fun ⟨hst, hquit⟩ => ⟨hst, hq hquit⟩

theorem exitStatus_reach (hr : Reach (next E.cfg) anyInput (init E) σ) : ExitStatus σ :=
  hr.invariant (P := ExitStatus) nofun fun _ _ _ _ h _ hn => exitStatus_step h hn

/-- The process has a step wherever it is. -/
theorem Shutting.moves (h : Shutting E σ) (halive : σ.alive = true) :
    ∃ a σ', next E.cfg σ (.sys a) = some σ' := by
  have hst := h.stopping
  cases hp : σ.pc with
  | interrupted =>
      cases hb : σ.bzChild with
      | true => exact ⟨.ok, _, by simp [next, sysStep, hp, hb]; rfl⟩
      | false => exact ⟨.ok, _, by simp [next, sysStep, hp, hb]; rfl⟩
  | waitpid => exact reaping_answers E.cfg (by rw [hp]; rfl)
  | fork t caller =>
      cases caller with
      | startTasks rest => simp [hp, Pc.stopping] at hst
      | restartTask => exact reaping_answers E.cfg (by rw [hp]; rfl)
  | callback =>
      obtain ⟨ctx, hctx, -⟩ := ((ctl_reach h.reach).running (by rw [hp]; rfl)).ctx
      exact ⟨.ok, _, by simp [next, sysStep, hp, hctx]; rfl⟩
  | contextClose site => exact ⟨.ok, _, by simp [next, sysStep, hp]; rfl⟩
  | postRun => exact ⟨.ok, _, by simp [next, sysStep, hp]; rfl⟩
  | exiting status => exact ⟨.ok, _, by simp [next, sysStep, hp]; rfl⟩
  | exited | handlerFault | treeFault => simp [State.alive, hp] at halive
  | initInstance | contextCreate | contextInit | assignContext | setCallback | sigmask | startTasks
  | pselect => simp [hp, Pc.stopping] at hst

/-- **The way out.** From a recorded request on, in every run and however the
environment interferes, the process takes at most six steps, two for each child
that waits to be reaped and two for each that exits from then on; until it ends it
always has a step to take, and it never waits. It exits with status 1, or with
status 2 where `SIGQUIT` was recorded. -/
theorem shutdown_bounded {σ₀ : State τ} {is : List Input}
    (h₀ : Requested E σ₀) (h : runFrom (next E.cfg) σ₀ is = some σ) :
    is.countP Input.isSys ≤ 2 * (σ₀.zombies + is.countP Input.isExit) + 6 ∧ σ.pc ≠ .pselect ∧
      (σ.alive = true → ∃ a σ', next E.cfg σ (.sys a) = some σ') ∧
      ∀ status, σ.pc = .exiting status → status = 1 ∨ status = 2 ∧ σ.bzQuit = true := by
  have hstep : ∀ σ i σ', Shutting E σ → next E.cfg σ i = some σ' →
      Shutting E σ' ∧ i.sysCost + σ'.exitCost ≤ σ.exitCost + i.exitPay :=
    fun _ _ _ hP hn => ⟨shutting_step hP hn, exitCost_step hP hn⟩
  obtain ⟨hend, hcost⟩ := runFrom_potential hstep h₀.shutting h
  rw [sum_sysCost, sum_exitPay] at hcost
  refine ⟨?_, fun hp => ?_, hend.moves, exitStatus_reach hend.reach⟩
  · have hle := exitCost_le σ₀
    omega
  · have hst := hend.stopping
    rw [hp] at hst
    cases hst

end

/-- `SIGTERM` in `pselect` while a process of the task waits to be reaped; the one
that is started instead exits at once, and is replaced as well. -/
theorem shutdown_bounded_oneTask : ∃ σ₀ σ : State Nat,
    σ₀.zombies = 1 ∧ σ.pc = .exiting 1 ∧ 9 ≤ 2 * (σ₀.zombies + 1) + 6 ∧ σ.pc ≠ .pselect ∧
      (σ.alive = true → ∃ a σ', next oneTask.cfg σ (.sys a) = some σ') := by
  let is : List Input := [.deliver .chld, .sys .ok, .sys (.pid 100), .sys (.pid 101),
    .childExit 101, .sys (.pid 101), .sys .err, .sys .err, .sys .ok, .sys .ok, .sys .ok]
  have hrun : ((runFrom (guarded (next oneTask.cfg) noEarlyStop) (init oneTask)
      [.sys .ok, .sys .ok, .sys .ok, .sys .ok, .sys .ok, .sys .ok, .sys .ok, .sys (.pid 100),
        .sys .ok, .childExit 100, .raise .term, .deliver .term]).bind fun σ₀ =>
          (runFrom (next oneTask.cfg) σ₀ is).map fun σ =>
            σ₀.stop && decide (σ₀.zombies = 1) && decide (σ.pc = .exiting 1)) = some true := by
    decide +kernel
  obtain ⟨σ₀, hσ₀, hrun⟩ := Option.bind_eq_some_iff.mp hrun
  obtain ⟨σ, hσ, hst⟩ := Option.map_eq_some_iff.mp hrun
  simp only [Bool.and_eq_true, decide_eq_true_eq] at hst
  obtain ⟨⟨hs, hz⟩, hpc⟩ := hst
  obtain ⟨hle, hsel, hmoves, -⟩ := shutdown_bounded
    (requested_of_stop (Reach.of_guarded hσ₀) hs) hσ
  exact ⟨σ₀, σ, hz, hpc, hle, hsel, hmoves⟩

end Bitzer
