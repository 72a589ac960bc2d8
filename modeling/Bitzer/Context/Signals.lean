import Bitzer.Context.Control

/-!
# What a handler finds, and what a request leads to

`signal_handler` dereferences the global context at every delivery, so it
needs one from the first delivery to the last; `contextLive_iff` says where in
the code it has one. The flags it sets are read after a `pselect` only, so a
request that is recorded before the mask is set is not seen until another
signal arrives; every other one is seen before the process waits again
(`stop_step`).
-/

namespace Bitzer

open Lib

variable {τ : Type}

/-- From `context = ctx` to the `free` in `context_close`. -/
def Pc.assigned : Pc τ → Bool
  | .setCallback => true
  | .sigmask => true
  | .startTasks _ => true
  | .fork _ _ => true
  | .pselect => true
  | .interrupted => true
  | .waitpid => true
  | .callback => true
  | .contextClose site => site != .initFailed
  | .exiting status => status == 2
  | _ => false

theorem contextLive_iff {E : Env τ} {σ : State τ} (h : Ctl E σ) (halive : σ.alive = true) :
    σ.contextLive = true ↔ σ.pc.assigned = true := by
  have hloop : σ.pc.inLoop = true → (σ.contextLive = true ↔ σ.pc.assigned = true) := fun hl => by
    refine iff_of_true (h.running hl).contextLive ?_
    revert hl
    cases σ.pc <;> simp [Pc.inLoop, Pc.assigned]
  cases hpc : σ.pc with
  | startTasks | fork | pselect | interrupted | waitpid | callback =>
      rw [← hpc]
      exact hloop (by rw [hpc]; rfl)
  | initInstance | contextCreate | contextInit | assignContext =>
      simp only [Ctl, hpc] at h
      simp [State.contextLive, Pc.assigned, h.2.1]
  | setCallback =>
      simp only [Ctl, hpc] at h
      obtain ⟨⟨ctx, hctx, -⟩, hc, hl, -⟩ := h
      simp [State.contextLive, Pc.assigned, hctx, hc, hl]
  | sigmask =>
      simp only [Ctl, hpc] at h
      obtain ⟨⟨ctx, hctx, -⟩, hc, hl, -⟩ := h
      simp [State.contextLive, Pc.assigned, hctx, hc, hl]
  | contextClose site =>
      simp only [Ctl, hpc] at h
      obtain ⟨⟨ctx, hctx⟩, hl, hc⟩ := h
      simp [State.contextLive, Pc.assigned, hctx, hc, hl]
  | postRun =>
      simp only [Ctl, hpc] at h
      simp [State.contextLive, Pc.assigned, h.1]
  | exiting status =>
      simp only [Ctl, hpc] at h
      by_cases hs : status = 2
      · rw [if_pos hs] at h
        obtain ⟨⟨ctx, hctx⟩, hc, hl⟩ := h
        simp [State.contextLive, Pc.assigned, hctx, hc, hl, hs]
      · rw [if_neg hs] at h
        simp [State.contextLive, Pc.assigned, h, hs]
  | exited | handlerFault | treeFault => simp [State.alive, hpc] at halive

/-- A termination request is recorded. -/
def State.stop (σ : State τ) : Bool := σ.bzQuit || σ.bzTerminate

/-- The signals that request termination. -/
def Signal.stops : Signal → Bool
  | .quit => true
  | .term => true
  | .int => true
  | _ => false

theorem stop_deliver [DecidableEq τ] (s : Signal) (σ : State τ) :
    (deliver s σ).stop = (σ.stop || s.stops) := by
  cases s <;> simp [State.stop, Signal.stops, Bool.or_comm]

theorem sigmask_of_stops {s : Signal} (h : s.stops = true) : sigmask s = true := by
  cases s <;> simp_all [Signal.stops, sigmask]

/-- Where the process can be with a recorded request: between a `pselect` that
was interrupted and its exit. -/
def Pc.stopping : Pc τ → Bool
  | .interrupted => true
  | .waitpid => true
  | .fork _ .restartTask => true
  | .callback => true
  | .contextClose _ => true
  | .postRun => true
  | .exiting _ => true
  | .exited => true
  | .handlerFault => true
  | .treeFault => true
  | _ => false

/-- No termination request is delivered after `context = ctx` and before the
mask is set. -/
def noEarlyStop (σ : State τ) (i : Input) : Prop :=
  ∀ s, i = .deliver s → s.stops = true → σ.pc ≠ .setCallback ∧ σ.pc ≠ .sigmask

theorem SameControl.stop {σ σ' : State τ} (h : SameControl σ σ') : σ'.stop = σ.stop := by
  rw [State.stop, State.stop, h.bzQuit, h.bzTerminate]

theorem stopping_goto {E : Env τ} {σ : State τ} {a : Answer} {pc : Pc τ} (h : Ctl E σ)
    (hg : Goto σ a pc) (hs : σ.stop = true) (hpc : σ.pc.stopping = true) :
    pc.stopping = true := by
  cases hg with
  | pidfile hp | pidfileFailed hp | createFailed hp | initFailed hp | maskFailed hp | started hp
  | unexpected hp => simp [hp, Pc.stopping] at hpc
  | noChild | drained | childless | exit => rfl
  | callback hp hctx =>
      -- the callback is set by now, and it exits
      obtain ⟨ctx, hctx', -, hcb, -⟩ := (h.running (by rw [hp]; rfl)).ctx
      rw [hctx] at hctx'
      cases hctx'
      simp only [callbackPc, hcb, if_true]
      cases hq : σ.bzQuit with
      | true => rfl
      | false =>
          have ht : σ.bzTerminate = true := by simpa [State.stop, hq] using hs
          simp [ht, Pc.stopping]

variable [DecidableEq τ]

/-- A delivery before the mask is set finds no context, or is one of those that
`noEarlyStop` excludes; after that it interrupts `pselect`. -/
theorem stopping_deliver {E : Env τ} {σ : State τ} {s : Signal} (h : Ctl E σ)
    (halive : σ.alive = true) (hblocked : σ.blocked s = false) (hs : s.stops = true)
    (hok : noEarlyStop σ (.deliver s)) :
    (deliver s σ).pc.stopping = true := by
  rw [deliver_pc]
  by_cases hlive : σ.contextLive = true
  swap
  · rw [if_neg hlive]
    rfl
  rw [if_pos hlive]
  have hassigned := (contextLive_iff h halive).mp hlive
  obtain ⟨hne₁, hne₂⟩ := hok s rfl hs
  have hwaits := fun hl => h.waits hl (sigmask_of_stops hs) hblocked
  cases hpc : σ.pc with
  | initInstance | contextCreate | contextInit | assignContext | setCallback | sigmask =>
      simp_all [Pc.assigned]
  | startTasks | fork | waitpid | callback => simp [hpc, Pc.inLoop] at hwaits
  | pselect => rfl
  | interrupted | contextClose | postRun | exiting | exited | handlerFault | treeFault => rfl

theorem stop_step {E : Env τ} {σ σ' : State τ} {i : Input} (h : Ctl E σ)
    (hinv : σ.stop = true → σ.pc.stopping = true) (hok : noEarlyStop σ i)
    (hstep : Step E.cfg σ i σ') : σ'.stop = true → σ'.pc.stopping = true := by
  intro hs
  cases hstep with
  | goto hg => exact stopping_goto h hg hs (hinv hs)
  | create hpc =>
      have := hinv (by
        unfold contextCreate at hs
        split at hs <;> exact hs)
      simp [hpc, Pc.stopping] at this
  | load hpc _ | assign hpc | setCallback hpc _ | mask hpc _ =>
      have := hinv hs
      simp [hpc, Pc.stopping] at this
  | start hpc =>
      have := hinv (by rwa [(sameControl_taskRun _ _ _).stop] at hs)
      simp [hpc, Pc.stopping] at this
  | @forked t caller p hpc _ _ =>
      have := hinv (by rwa [(sameControl_taskRunForked ..).stop] at hs)
      rcases pc_taskRunForked E.cfg caller t p σ with hpc' | hpc' <;> rw [hpc']
      · cases caller with
        | startTasks rest => simp [hpc, Pc.stopping] at this
        | restartTask => rfl
      · rfl
  | @forkFailed t caller hpc =>
      have := hinv hs
      cases caller with
      | startTasks rest => simp [hpc, Pc.stopping] at this
      | restartTask => rfl
  | enter => rfl
  | reap hpc _ _ =>
      rcases pc_reaped E.cfg _ σ hpc with ⟨t, hpc'⟩ | hpc' | hpc' <;> rw [hpc'] <;> rfl
  | close | post => rfl
  | childExit _ _ | adopt _ _ | raise => exact hinv hs
  | @deliver s halive _ hblocked =>
      rw [stop_deliver, Bool.or_eq_true] at hs
      rcases hs with hs | hs
      · have hst := hinv hs
        rcases pc_deliver s σ with hpc | ⟨-, hpc⟩ | hpc <;> rw [hpc]
        · exact hst
        · rfl
        · rfl
      · exact stopping_deliver h halive hblocked hs hok

/-- A recorded request keeps the process from waiting, in every run that records
none before the mask is set. -/
theorem stopping_reach {E : Env τ} {σ : State τ}
    (h : Reach (next E.cfg) noEarlyStop (init E) σ) : σ.stop = true → σ.pc.stopping = true :=
  h.invariant (fun hs => by cases hs) fun _ _ _ hr hinv hok hn =>
    stop_step (ctl_reach hr.any) hinv hok (step_of_next hn)

/-- The supervisor never waits with a recorded request. -/
def NoLostShutdown (E : Env τ) (ok : State τ → Input → Prop) : Prop :=
  ∀ σ, Reach (next E.cfg) ok (init E) σ → σ.pc = .pselect → σ.stop = false

/-- It never does in the runs that record no request between `context = ctx`
and the mask. -/
theorem noLostShutdown (E : Env τ) : NoLostShutdown E noEarlyStop := by
  intro σ h hpc
  cases hs : σ.stop with
  | false => rfl
  | true =>
      have := stopping_reach h hs
      simp [hpc, Pc.stopping] at this

/-- `SIGTERM` right after `context = ctx`: the mask is set, the task is started,
and the process waits with `bz_terminate` set. -/
theorem not_noLostShutdown : ¬ NoLostShutdown oneTask anyInput := by
  intro h
  have hrun : (runFrom (next oneTask.cfg) (init oneTask)
      [.sys .ok, .sys .ok, .sys .ok, .sys .ok, .raise .term, .deliver .term, .sys .ok, .sys .ok,
        .sys .ok, .sys (.pid 100), .sys .ok]).map
      (fun σ => decide (σ.pc = .pselect) && σ.stop) = some true := by
    decide +kernel
  obtain ⟨σ, hσ, hst⟩ := Option.map_eq_some_iff.mp hrun
  simp only [Bool.and_eq_true, decide_eq_true_eq] at hst
  have := h σ (Reach.of_runFrom hσ) hst.1
  simp [hst.2] at this

/-- Only a delivery without a live context faults. -/
theorem fault_step {cfg : Config τ} {σ σ' : State τ} {i : Input} (hstep : Step cfg σ i σ')
    (hpc : σ.pc ≠ .handlerFault) (hfault : σ'.pc = .handlerFault) :
    ∃ s, i = .deliver s ∧ σ.alive = true ∧ σ.contextLive = false := by
  have hcaller : ∀ caller : Caller τ, caller.pc ≠ .handlerFault := fun caller => by
    cases caller <;> simp [Caller.pc]
  cases hstep with
  | goto hg =>
      cases hg with
      | callback hp hctx =>
          simp only [callbackPc] at hfault
          split at hfault
          · split at hfault
            · cases hfault
            · split at hfault <;> cases hfault
          · cases hfault
      | pidfile | pidfileFailed | createFailed | initFailed | maskFailed | started | unexpected
      | noChild | drained | childless | exit => cases hfault
  | create =>
      unfold contextCreate at hfault
      split at hfault <;> cases hfault
  | load | assign | setCallback | mask | enter | close | post => cases hfault
  | start =>
      rcases pc_taskRun _ _ σ with hpc' | hpc' <;> rw [hpc'] at hfault <;> cases hfault
  | @forked t caller p =>
      rcases pc_taskRunForked cfg caller t p σ with hpc' | hpc' <;> rw [hpc'] at hfault
      · exact absurd hfault (hcaller caller)
      · cases hfault
  | @forkFailed t caller => exact absurd hfault (hcaller caller)
  | reap hp =>
      rcases pc_reaped cfg _ σ hp with ⟨t, hpc'⟩ | hpc' | hpc' <;> rw [hpc'] at hfault <;>
        cases hfault
  | childExit | adopt | raise => exact absurd hfault hpc
  | @deliver s halive =>
      refine ⟨s, rfl, halive, ?_⟩
      cases hlive : σ.contextLive with
      | false => rfl
      | true =>
          rw [deliver_pc, if_pos hlive] at hfault
          split at hfault
          · cases hfault
          · exact absurd hfault hpc

/-- The handler of every signal that can be delivered finds a live context. -/
def HandlerContextLive (E : Env τ) : Prop :=
  ∀ σ, Reach (next E.cfg) anyInput (init E) σ → σ.alive = true →
    (∃ s, σ.blocked s = false) → σ.contextLive = true

/-- Every delivery is after `context = ctx` and before the context is freed. -/
def deliveredAssigned (σ : State τ) (i : Input) : Prop :=
  ∀ s, i = .deliver s → σ.pc.assigned = true

/-- The global context is live from `context = ctx` to the `free` in
`context_close` and at no other place; a run whose deliveries are all in
between never faults in the handler. -/
theorem handler_context (E : Env τ) :
    (∀ σ, Reach (next E.cfg) anyInput (init E) σ → σ.alive = true →
      (σ.contextLive = true ↔ σ.pc.assigned = true)) ∧
    ∀ σ, Reach (next E.cfg) deliveredAssigned (init E) σ → σ.pc ≠ .handlerFault := by
  refine ⟨fun σ h halive => contextLive_iff (ctl_reach h) halive, fun σ h => ?_⟩
  refine h.invariant (P := fun σ => σ.pc ≠ .handlerFault) (by simp [init]) ?_
  intro σ i σ' hr hpc hok hn hfault
  obtain ⟨s, rfl, halive, hlive⟩ := fault_step (step_of_next hn) hpc hfault
  rw [(contextLive_iff (ctl_reach hr.any) halive).mpr (hok s rfl)] at hlive
  cases hlive

/-- Any signal before `bz_run` assigns the context. -/
theorem not_handlerContextLive : ¬ HandlerContextLive oneTask := fun h => by
  have := h (init oneTask) .refl rfl ⟨.term, rfl⟩
  cases this

end Bitzer
