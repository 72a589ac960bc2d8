import Bitzer.Context.Step

/-!
# Where the supervisor is

The control state: for each place in the code, whether the context is
allocated, assigned to the global and complete, whether the log is open, and
which signals are blocked (`Ctl`). Nothing here depends on the tasks or the
tree; the functions that change those leave the control state alone
(`SameControl`).
-/

namespace Bitzer

open Lib

variable {τ : Type}

/-- From `context_sigmask` to the end of `context_run`. -/
structure Running (E : Env τ) (σ : State τ) : Prop where
  ctx : ∃ ctx, σ.ctx = some ctx ∧ ctx.conf = some E.cfg.tasks ∧ ctx.callback = true ∧
    ctx.origmask = E.mask
  context : σ.context = true
  logOpen : σ.logOpen = true
  masked : ∀ s, sigmask s = true → σ.mask s = true

/-- What holds at each place. -/
def Ctl (E : Env τ) (σ : State τ) : Prop :=
  match σ.pc with
  | .initInstance => σ.ctx = none ∧ σ.context = false ∧ σ.logOpen = true ∧ σ.mask = E.mask
  | .contextCreate => σ.ctx = none ∧ σ.context = false ∧ σ.logOpen = true ∧ σ.mask = E.mask
  | .contextInit =>
      (∃ ctx, σ.ctx = some ctx) ∧ σ.context = false ∧ σ.logOpen = true ∧ σ.mask = E.mask
  | .assignContext => (∃ ctx, σ.ctx = some ctx ∧ ctx.conf = some E.cfg.tasks) ∧
      σ.context = false ∧ σ.logOpen = true ∧ σ.mask = E.mask
  | .setCallback => (∃ ctx, σ.ctx = some ctx ∧ ctx.conf = some E.cfg.tasks) ∧
      σ.context = true ∧ σ.logOpen = true ∧ σ.mask = E.mask
  | .sigmask =>
      (∃ ctx, σ.ctx = some ctx ∧ ctx.conf = some E.cfg.tasks ∧ ctx.callback = true) ∧
        σ.context = true ∧ σ.logOpen = true ∧ σ.mask = E.mask
  | .startTasks _ => Running E σ
  | .fork _ _ => Running E σ
  | .pselect => Running E σ
  | .interrupted => Running E σ
  | .waitpid => Running E σ
  | .callback => Running E σ
  | .contextClose site => (∃ ctx, σ.ctx = some ctx) ∧ σ.logOpen = true ∧
      (σ.context = true ↔ site ≠ .initFailed)
  | .postRun => σ.ctx = none ∧ σ.logOpen = true
  | .exiting status =>
      if status = 2 then (∃ ctx, σ.ctx = some ctx) ∧ σ.context = true ∧ σ.logOpen = true
      else σ.ctx = none
  | .exited => True
  | .handlerFault => True
  | .treeFault => True

/-- The two states differ in the program counter, the tasks, the tree, the
children and the history at most. -/
structure SameControl (σ σ' : State τ) : Prop where
  ctx : σ'.ctx = σ.ctx
  context : σ'.context = σ.context
  logOpen : σ'.logOpen = σ.logOpen
  bzQuit : σ'.bzQuit = σ.bzQuit
  bzTerminate : σ'.bzTerminate = σ.bzTerminate
  bzChild : σ'.bzChild = σ.bzChild
  mask : σ'.mask = σ.mask
  pending : σ'.pending = σ.pending

theorem SameControl.refl (σ : State τ) : SameControl σ σ :=
  ⟨rfl, rfl, rfl, rfl, rfl, rfl, rfl, rfl⟩

theorem SameControl.trans {σ σ' σ'' : State τ} (h : SameControl σ σ') (h' : SameControl σ' σ'') :
    SameControl σ σ'' :=
  ⟨h'.ctx.trans h.ctx, h'.context.trans h.context, h'.logOpen.trans h.logOpen,
    h'.bzQuit.trans h.bzQuit, h'.bzTerminate.trans h.bzTerminate, h'.bzChild.trans h.bzChild,
    h'.mask.trans h.mask, h'.pending.trans h.pending⟩

theorem Running.congr {E : Env τ} {σ σ' : State τ} (h : Running E σ) (hs : SameControl σ σ') :
    Running E σ' :=
  ⟨hs.ctx ▸ h.ctx, hs.context ▸ h.context, hs.logOpen ▸ h.logOpen, hs.mask ▸ h.masked⟩

/-- The control state is about the context, the log and the mask only. -/
theorem Ctl.congr {E : Env τ} {σ σ' : State τ} (h : Ctl E σ) (hpc : σ'.pc = σ.pc)
    (hctx : σ'.ctx = σ.ctx) (hc : σ'.context = σ.context) (hl : σ'.logOpen = σ.logOpen)
    (hm : σ'.mask = σ.mask) : Ctl E σ' := by
  have hr : Running E σ → Running E σ' := fun h =>
    ⟨hctx ▸ h.ctx, hc ▸ h.context, hl ▸ h.logOpen, hm ▸ h.masked⟩
  unfold Ctl at h ⊢
  rw [hpc, hctx, hc, hl, hm]
  cases hp : σ.pc <;> simp only [hp] at h ⊢ <;> first | exact h | exact hr h

theorem Running.contextLive {E : Env τ} {σ : State τ} (h : Running E σ) : σ.contextLive = true := by
  obtain ⟨ctx, hctx, -⟩ := h.ctx
  simp [State.contextLive, hctx, h.context, h.logOpen]

/-- The places inside `context_run` after the mask is set. -/
def Pc.inLoop : Pc τ → Bool
  | .startTasks _ => true
  | .fork _ _ => true
  | .pselect => true
  | .interrupted => true
  | .waitpid => true
  | .callback => true
  | _ => false

theorem Ctl.running {E : Env τ} {σ : State τ} (h : Ctl E σ) (hpc : σ.pc.inLoop = true) :
    Running E σ := by
  unfold Ctl at h
  revert hpc h
  cases σ.pc <;> simp [Pc.inLoop]

theorem Running.ctl {E : Env τ} {σ : State τ} (h : Running E σ)
    (hpc : σ.pc.inLoop = true ∨ σ.pc = .treeFault) : Ctl E σ := by
  unfold Ctl
  revert hpc
  cases σ.pc <;> simp [Pc.inLoop, h]

/-- In the loop, a masked signal gets through in `pselect` only. -/
theorem Ctl.waits {E : Env τ} {σ : State τ} {s : Signal} (h : Ctl E σ) (hl : σ.pc.inLoop = true)
    (hs : sigmask s = true) (hb : σ.blocked s = false) : σ.pc = .pselect ∨ σ.pc = .interrupted := by
  have hm := (h.running hl).masked s hs
  cases hpc : σ.pc with
  | pselect => exact Or.inl rfl
  | interrupted => exact Or.inr rfl
  | startTasks | fork | waitpid | callback => simp [State.blocked, hpc, hm] at hb
  | initInstance | contextCreate | contextInit | assignContext | setCallback | sigmask
  | contextClose | postRun | exiting | exited | handlerFault | treeFault =>
      rw [hpc] at hl
      cases hl

@[simp] theorem Caller.inLoop_pc (caller : Caller τ) : caller.pc.inLoop = true := by
  cases caller <;> rfl

theorem ctl_goto {E : Env τ} {σ : State τ} {a : Answer} {pc : Pc τ} (h : Ctl E σ)
    (hg : Goto σ a pc) : Ctl E { σ with pc := pc } := by
  have hrun : σ.pc.inLoop = true → Running E { σ with pc := pc } := fun hpc =>
    (h.running hpc).congr ⟨rfl, rfl, rfl, rfl, rfl, rfl, rfl, rfl⟩
  cases hg with
  | pidfile hpc =>
      simp only [Ctl, hpc] at h ⊢
      exact h
  | pidfileFailed hpc =>
      simp only [Ctl, hpc] at h ⊢
      exact ⟨h.1, h.2.2.1⟩
  | createFailed hpc =>
      simp only [Ctl, hpc] at h ⊢
      exact ⟨h.1, h.2.2.1⟩
  | initFailed hpc =>
      simp only [Ctl, hpc] at h ⊢
      exact ⟨h.1, h.2.2.1, by simp [h.2.1]⟩
  | maskFailed hpc =>
      simp only [Ctl, hpc] at h ⊢
      obtain ⟨⟨ctx, hctx, -⟩, hc, hl, -⟩ := h
      exact ⟨⟨ctx, hctx⟩, hl, by simp [hc]⟩
  | started hpc => exact hrun (by rw [hpc]; rfl)
  | unexpected hpc => exact hrun (by rw [hpc]; rfl)
  | noChild hpc _ => exact hrun (by rw [hpc]; rfl)
  | drained hpc _ => exact hrun (by rw [hpc]; rfl)
  | childless hpc _ => exact hrun (by rw [hpc]; rfl)
  | callback hpc hctx =>
      have hr := hrun (by rw [hpc]; rfl)
      obtain ⟨ctx', hctx', hrest⟩ := hr.ctx
      unfold callbackPc
      split
      · split
        · exact ⟨⟨ctx', hctx'⟩, hr.context, hr.logOpen⟩
        · split
          · exact ⟨⟨ctx', hctx'⟩, hr.logOpen, by simpa using hr.context⟩
          · exact ⟨⟨ctx', hctx', hrest⟩, hr.context, hr.logOpen, hr.masked⟩
      · exact ⟨⟨ctx', hctx', hrest⟩, hr.context, hr.logOpen, hr.masked⟩
  | exit hpc => trivial

variable [DecidableEq τ]

/-- A delivery leaves the process where it is, interrupts `pselect` or faults. -/
theorem pc_deliver (s : Signal) (σ : State τ) :
    (deliver s σ).pc = σ.pc ∨ (σ.pc = .pselect ∧ (deliver s σ).pc = .interrupted) ∨
      (deliver s σ).pc = .handlerFault := by
  rw [deliver_pc]
  split
  · split
    · exact Or.inr (Or.inl ⟨‹_›, rfl⟩)
    · exact Or.inl rfl
  · exact Or.inr (Or.inr rfl)

/-! ## The functions that change the tasks and the tree -/

theorem sameControl_taskRun (caller : Caller τ) (t : τ) (σ : State τ) :
    SameControl σ (taskRun caller t σ) :=
  ⟨rfl, rfl, rfl, rfl, rfl, rfl, rfl, rfl⟩

theorem pc_taskRun (caller : Caller τ) (t : τ) (σ : State τ) :
    (taskRun caller t σ).pc = .fork t caller ∨ (taskRun caller t σ).pc = caller.pc := by
  show (if _ then _ else _ : Pc τ) = _ ∨ (if _ then _ else _ : Pc τ) = _
  split
  · exact Or.inl rfl
  · exact Or.inr rfl

theorem sameControl_taskRunForked (cfg : Config τ) (caller : Caller τ) (t : τ) (p : Int32)
    (σ : State τ) : SameControl σ (taskRunForked cfg caller t p σ) := by
  unfold taskRunForked
  dsimp only
  split <;> exact ⟨rfl, rfl, rfl, rfl, rfl, rfl, rfl, rfl⟩

/-- Where its tree operations succeed. -/
theorem taskRunForked_eq {cfg : Config τ} {caller : Caller τ} {t : τ} {p : Int32} {σ : State τ}
    (h : (taskRunForked cfg caller t p σ).pc ≠ .treeFault) :
    ∃ mem, taskRunForked cfg caller t p σ =
      { σ with
        mem := mem
        task := Function.update σ.task t (taskStarted p (σ.task t))
        children := ⟨p, some t, false⟩ :: σ.children
        trace := .fork t (some p) :: σ.trace
        pc := caller.pc } := by
  unfold taskRunForked at h ⊢
  dsimp only at h ⊢
  split at h
  · exact absurd rfl h
  · exact ⟨_, rfl⟩

theorem pc_taskRunForked (cfg : Config τ) (caller : Caller τ) (t : τ) (p : Int32) (σ : State τ) :
    (taskRunForked cfg caller t p σ).pc = caller.pc ∨
      (taskRunForked cfg caller t p σ).pc = .treeFault := by
  unfold taskRunForked
  dsimp only
  split
  · exact Or.inr rfl
  · exact Or.inl rfl

theorem sameControl_contextRestartTask (cfg : Config τ) (t : τ) (σ : State τ) :
    SameControl σ (contextRestartTask cfg t σ) := by
  unfold contextRestartTask
  split <;> exact ⟨rfl, rfl, rfl, rfl, rfl, rfl, rfl, rfl⟩

theorem pc_contextRestartTask (cfg : Config τ) (t : τ) (σ : State τ) :
    (contextRestartTask cfg t σ).pc = .fork t .restartTask ∨
      (contextRestartTask cfg t σ).pc = .waitpid ∨
      (contextRestartTask cfg t σ).pc = .treeFault := by
  unfold contextRestartTask
  split
  · exact Or.inr (Or.inr rfl)
  · rcases pc_taskRun .restartTask t _ with h | h
    · exact Or.inl h
    · exact Or.inr (Or.inl h)

theorem sameControl_reaped (cfg : Config τ) (c : Child τ) (σ : State τ) :
    SameControl σ (reaped cfg c σ) := by
  unfold reaped
  dsimp only
  split
  · exact ⟨rfl, rfl, rfl, rfl, rfl, rfl, rfl, rfl⟩
  · exact ⟨rfl, rfl, rfl, rfl, rfl, rfl, rfl, rfl⟩
  · obtain ⟨h₁, h₂, h₃, h₄, h₅, h₆, h₇, h₈⟩ := sameControl_contextRestartTask cfg _ _
    exact ⟨h₁, h₂, h₃, h₄, h₅, h₆, h₇, h₈⟩

theorem pc_reaped (cfg : Config τ) (c : Child τ) (σ : State τ) (hpc : σ.pc = .waitpid) :
    (∃ t, (reaped cfg c σ).pc = .fork t .restartTask) ∨
      (reaped cfg c σ).pc = .waitpid ∨ (reaped cfg c σ).pc = .treeFault := by
  unfold reaped
  dsimp only
  split
  · exact Or.inr (Or.inr rfl)
  · exact Or.inr (Or.inl hpc)
  · rcases pc_contextRestartTask cfg _ _ with h | h
    · exact Or.inl ⟨_, h⟩
    · exact Or.inr h

/-! ## The control state along a run -/

theorem ctl_step {E : Env τ} {σ σ' : State τ} {i : Input} (h : Ctl E σ)
    (hstep : Step E.cfg σ i σ') : Ctl E σ' := by
  cases hstep with
  | goto hg => exact ctl_goto h hg
  | create hpc =>
      unfold contextCreate
      split
      · trivial
      · simp only [Ctl, hpc] at h
        exact ⟨⟨_, rfl⟩, h.2⟩
  | load hpc hctx =>
      simp only [Ctl, hpc] at h
      exact ⟨⟨_, rfl, rfl⟩, h.2⟩
  | assign hpc =>
      simp only [Ctl, hpc] at h
      exact ⟨h.1, rfl, h.2.2⟩
  | setCallback hpc hctx =>
      simp only [Ctl, hpc, hctx] at h
      obtain ⟨⟨ctx', hctx', hconf⟩, hrest⟩ := h
      cases hctx'
      exact ⟨⟨_, rfl, hconf, rfl⟩, hrest⟩
  | mask hpc hctx =>
      simp only [Ctl, hpc, hctx] at h
      obtain ⟨⟨ctx', hctx', hconf, hcb⟩, hc, hl, hm⟩ := h
      cases hctx'
      exact ⟨⟨_, rfl, hconf, hcb, hm⟩, hc, hl, fun s hs => by simp [contextSigmask, hs]⟩
  | start hpc =>
      have hr := h.running (by rw [hpc]; rfl)
      refine (hr.congr (sameControl_taskRun _ _ _)).ctl (Or.inl ?_)
      rcases pc_taskRun _ _ σ with hpc' | hpc' <;> rw [hpc'] <;> rfl
  | @forked t caller p hpc _ _ =>
      have hr := h.running (by rw [hpc]; rfl)
      refine (hr.congr (sameControl_taskRunForked ..)).ctl ?_
      rcases pc_taskRunForked E.cfg caller t p σ with hpc' | hpc'
      · exact Or.inl (by rw [hpc']; exact caller.inLoop_pc)
      · exact Or.inr hpc'
  | @forkFailed t caller hpc =>
      have hr := h.running (by rw [hpc]; rfl)
      have hs : SameControl σ (taskRunFailed caller t σ) := ⟨rfl, rfl, rfl, rfl, rfl, rfl, rfl, rfl⟩
      exact (hr.congr hs).ctl (Or.inl caller.inLoop_pc)
  | enter hpc _ =>
      have hr := h.running (by rw [hpc]; rfl)
      exact ⟨hr.ctx, hr.context, hr.logOpen, hr.masked⟩
  | reap hpc _ _ =>
      have hr := h.running (by rw [hpc]; rfl)
      refine (hr.congr (sameControl_reaped ..)).ctl ?_
      rcases pc_reaped E.cfg _ σ hpc with ⟨t, hpc'⟩ | hpc' | hpc'
      · exact Or.inl (by rw [hpc']; rfl)
      · exact Or.inl (by rw [hpc']; rfl)
      · exact Or.inr hpc'
  | close hpc =>
      simp only [Ctl, hpc] at h
      exact ⟨rfl, h.2.1⟩
  | post hpc =>
      simp only [Ctl, hpc] at h
      exact h.1
  | childExit _ _ => exact h.congr rfl rfl rfl rfl rfl
  | adopt _ _ => exact h.congr rfl rfl rfl rfl rfl
  | raise => exact h.congr rfl rfl rfl rfl rfl
  | @deliver s _ _ _ =>
      rcases pc_deliver s σ with hpc | ⟨hpc, hpc'⟩ | hpc
      · exact h.congr hpc (by simp) (by simp) (by simp) (by simp)
      · have hr := h.running (by rw [hpc]; rfl)
        have hr' : Running E (deliver s σ) :=
          ⟨by simpa using hr.ctx, by simpa using hr.context, by simpa using hr.logOpen,
            by simpa using hr.masked⟩
        exact hr'.ctl (Or.inl (by rw [hpc']; rfl))
      · unfold Ctl
        rw [hpc]
        trivial

/-- The control state at every reachable state. -/
theorem ctl_reach {E : Env τ} {σ : State τ} (h : Reach (next E.cfg) anyInput (init E) σ) :
    Ctl E σ :=
  h.invariant ⟨rfl, rfl, rfl, rfl⟩ fun _ _ _ _ hc _ hn => ctl_step hc (step_of_next hn)

end Bitzer
