import Bitzer.Context.Index

/-!
# No child exit is lost

`SIGCHLD` is blocked before the first task is started and every `pselect` lets
it through, so an exit is either still pending or has set `bz_child`, which is
never cleared; and the `waitpid` loop ends only when no exited child is left.
`Reaps` is the invariant. The one exception are children that the process had
before it set the mask: the signal of their exit may be gone by then.
-/

namespace Bitzer

open Lib

variable {τ : Type}

/-- Up to `context_sigmask`. -/
def Pc.early : Pc τ → Bool
  | .initInstance => true
  | .contextCreate => true
  | .contextInit => true
  | .assignContext => true
  | .setCallback => true
  | .sigmask => true
  | _ => false

/-- In the `waitpid` loop. -/
def Pc.reaping : Pc τ → Bool
  | .waitpid => true
  | .fork _ .restartTask => true
  | _ => false

/-- A `waitpid` loop is to be entered or to end before the next `pselect`. -/
def Pc.draining : Pc τ → Bool
  | .interrupted => true
  | .waitpid => true
  | .fork _ .restartTask => true
  | _ => false

/-- Every exited child has its signal pending, or will be seen by a `waitpid`
before the process waits, or had exited in `σ₁`, where the mask was set, and no
`waitpid` loop was entered since. -/
structure Reaps (σ₁ σ : State τ) : Prop where
  late : σ.pc.early = false
  woken : σ.pc.reaping = true → σ.bzChild = true
  zombie : σ.pc.inLoop = true → ∀ c ∈ σ.children, c.exited = true →
    σ.pending .chld = true ∨ (c ∈ σ₁.children ∧ .enter ∉ σ.trace) ∨
      (σ.bzChild = true ∧ σ.pc.draining = true)

section
variable {σ₁ σ σ' : State τ}

@[simp] theorem Caller.early_pc (caller : Caller τ) : caller.pc.early = false := by
  cases caller <;> rfl

theorem Caller.draining_pc {caller : Caller τ} {t : τ} :
    (Pc.fork t caller).draining = caller.pc.draining := by
  cases caller <;> rfl

theorem Caller.reaping_pc {caller : Caller τ} {t : τ} :
    (Pc.fork t caller).reaping = caller.pc.reaping := by
  cases caller <;> rfl

/-- A step that starts no child and enters no loop keeps every reason. -/
theorem Reaps.keep (h : Reaps σ₁ σ) (hlate : σ'.pc.early = false)
    (hwoken : σ'.pc.reaping = true → σ'.bzChild = true)
    (hloop : σ'.pc.inLoop = true → σ.pc.inLoop = true)
    (hc : ∀ c ∈ σ'.children, c.exited = true → c ∈ σ.children)
    (hp : σ'.pc.inLoop = true → σ.pending .chld = true → σ'.pending .chld = true ∨
      (σ'.bzChild = true ∧ σ'.pc.draining = true))
    (ht : .enter ∈ σ'.trace → .enter ∈ σ.trace)
    (hd : σ'.pc.inLoop = true → σ.bzChild = true → σ.pc.draining = true →
      σ'.bzChild = true ∧ σ'.pc.draining = true) : Reaps σ₁ σ' := by
  refine ⟨hlate, hwoken, fun hl c hmem he => ?_⟩
  rcases h.zombie (hloop hl) c (hc c hmem he) he with hpend | ⟨hmem₁, htr⟩ | ⟨hb, hdr⟩
  · rcases hp hl hpend with hpend | hdr
    · exact Or.inl hpend
    · exact Or.inr (Or.inr hdr)
  · exact Or.inr (Or.inl ⟨hmem₁, fun hm => htr (ht hm)⟩)
  · exact Or.inr (Or.inr (hd hl hb hdr))

/-- A state that drains is as it should be. -/
theorem Reaps.of_draining (hb : σ.bzChild = true)
    (hd : σ.pc.draining = true ∨ σ.pc = .treeFault) : Reaps σ₁ σ := by
  refine ⟨?_, fun _ => hb, fun hl _ _ _ => Or.inr (Or.inr ⟨hb, ?_⟩)⟩
  · rcases hd with hd | hd
    · revert hd
      cases σ.pc <;> simp [Pc.draining, Pc.early]
    · rw [hd]
      rfl
  · rcases hd with hd | hd
    · exact hd
    · rw [hd] at hl
      cases hl

theorem callbackPc_late (ctx : Context τ) (σ : State τ) :
    (callbackPc ctx σ).early = false ∧ (callbackPc ctx σ).reaping = false := by
  unfold callbackPc
  split
  · split
    · exact ⟨rfl, rfl⟩
    · split <;> exact ⟨rfl, rfl⟩
  · exact ⟨rfl, rfl⟩

theorem reaps_goto {a : Answer} {pc : Pc τ} (h : Reaps σ₁ σ) (hg : Goto σ a pc) :
    Reaps σ₁ { σ with pc := pc } := by
  have hlate := h.late
  -- no exited child is left where the loop ends
  have hnone : (∀ c ∈ σ.children, c.exited = false) → Reaps σ₁ { σ with pc := .callback } :=
    fun hc => ⟨rfl, by simp [Pc.reaping], fun _ c hmem he => by
      rw [hc c hmem] at he
      cases he⟩
  cases hg with
  | pidfile hp | pidfileFailed hp | createFailed hp | initFailed hp | maskFailed hp =>
      rw [hp] at hlate
      cases hlate
  | started hp =>
      exact h.keep rfl (by simp [Pc.reaping]) (by simp [hp, Pc.inLoop]) (fun _ hc _ => hc)
        (fun _ => Or.inl) id (by simp [hp, Pc.draining])
  | unexpected hp =>
      exact h.keep rfl (by simp [Pc.reaping]) (by simp [hp, Pc.inLoop]) (fun _ hc _ => hc)
        (fun _ => Or.inl) id (by simp [hp, Pc.draining])
  | noChild hp hb =>
      exact h.keep rfl (by simp [Pc.reaping]) (by simp [hp, Pc.inLoop]) (fun _ hc _ => hc)
        (fun _ => Or.inl) id (by simp [hb])
  | drained hp hc => exact hnone hc
  | childless hp hc =>
      refine hnone fun c hmem => ?_
      rw [hc] at hmem
      cases hmem
  | @callback ctx hp hctx =>
      have hpc := callbackPc_late ctx σ
      exact h.keep hpc.1 (by simp [hpc.2]) (by simp [hp, Pc.inLoop]) (fun _ hc _ => hc)
        (fun _ => Or.inl) id (by simp [hp, Pc.draining])
  | exit hp =>
      exact h.keep rfl (by simp [Pc.reaping]) (by simp [Pc.inLoop]) (fun _ hc _ => hc)
        (fun _ => Or.inl) id (by simp [Pc.inLoop])

end

variable [DecidableEq τ]

theorem reaps_forked {cfg : Config τ} {σ₁ σ : State τ} {t : τ} {caller : Caller τ} {p : Int32}
    (h : Reaps σ₁ σ) (hpc : σ.pc = .fork t caller) : Reaps σ₁ (taskRunForked cfg caller t p σ) := by
  unfold taskRunForked
  dsimp only
  split
  · exact ⟨rfl, by simp [Pc.reaping], by simp [Pc.inLoop]⟩
  · refine h.keep caller.early_pc (fun hr => h.woken ?_) (by simp [hpc, Pc.inLoop]) ?_
      (fun _ => Or.inl) (by simp) (fun _ hb hd => ⟨hb, ?_⟩)
    · rw [hpc, Caller.reaping_pc]
      exact hr
    · intro c hc he
      rcases List.mem_cons.mp hc with rfl | hc
      · cases he
      · exact hc
    · rw [hpc, Caller.draining_pc] at hd
      exact hd

theorem reaps_step {E : Env τ} {σ₁ σ σ' : State τ} {i : Input} (hctl : Ctl E σ)
    (h : Reaps σ₁ σ) (hstep : Step E.cfg σ i σ') : Reaps σ₁ σ' := by
  have hlate := h.late
  cases hstep with
  | goto hg => exact reaps_goto h hg
  | create hp | load hp | assign hp | setCallback hp | mask hp =>
      rw [hp] at hlate
      cases hlate
  | @start t rest hp =>
      have hpc : (taskRun (.startTasks rest) t σ).pc.early = false ∧
          (taskRun (.startTasks rest) t σ).pc.reaping = false := by
        rcases pc_taskRun (.startTasks rest) t σ with hpc | hpc <;> rw [hpc] <;> exact ⟨rfl, rfl⟩
      exact h.keep hpc.1 (by simp [hpc.2]) (by simp [hp, Pc.inLoop]) (fun _ hc _ => hc)
        (fun _ => Or.inl) (by simp [taskRun]) (by simp [hp, Pc.draining])
  | forked hp => exact reaps_forked h hp
  | @forkFailed t caller hp =>
      refine h.keep caller.early_pc (fun hr => h.woken ?_) (by simp [hp, Pc.inLoop])
        (fun _ hc _ => hc) (fun _ => Or.inl) (by simp [taskRunFailed]) (fun _ hb hd => ⟨hb, ?_⟩)
      · rw [hp, Caller.reaping_pc]
        exact hr
      · rw [hp, Caller.draining_pc] at hd
        exact hd
  | enter hp hb => exact Reaps.of_draining hb (Or.inl rfl)
  | reap hp _ _ =>
      refine Reaps.of_draining ?_ ?_
      · rw [(sameControl_reaped ..).bzChild]
        exact h.woken (by rw [hp]; rfl)
      · rcases pc_reaped E.cfg _ σ hp with ⟨t, hpc⟩ | hpc | hpc
        · exact Or.inl (by rw [hpc]; rfl)
        · exact Or.inl (by rw [hpc]; rfl)
        · exact Or.inr hpc
  | close | post => exact ⟨rfl, by simp [Pc.reaping], by simp [Pc.inLoop]⟩
  | childExit => exact ⟨h.late, h.woken, fun _ _ _ _ => Or.inl (by simp)⟩
  | adopt =>
      refine h.keep h.late h.woken id ?_ (fun _ => Or.inl) id fun _ hb hd => ⟨hb, hd⟩
      intro c hc he
      rcases List.mem_cons.mp hc with rfl | hc
      · cases he
      · exact hc
  | @raise s =>
      refine h.keep h.late h.woken id (fun _ hc _ => hc) (fun _ hp => Or.inl ?_) id
        fun _ hb hd => ⟨hb, hd⟩
      by_cases hs : Signal.chld = s <;> simp [hs, hp]
  | @deliver s halive _ hblocked =>
      rcases pc_deliver s σ with hpc | ⟨hp, hpc⟩ | hpc
      · refine h.keep (by rwa [hpc]) (fun hr => ?_) (by rw [hpc]; exact id)
          (fun c hc _ => by simpa using hc) (fun hl hpend => ?_) (by simp)
          fun _ hb hd => ⟨by simp [hb], by rwa [hpc]⟩
        · rw [hpc] at hr
          simp [h.woken hr]
        · by_cases hs : s = .chld
          · subst hs
            rw [hpc] at hl ⊢
            -- `SIGCHLD` gets through in an interrupted `pselect` only
            rcases hctl.waits hl rfl hblocked with hp | hp
            · rw [deliver_pc, hp] at hpc
              split at hpc <;> simp at hpc
            · exact Or.inr ⟨by simp, by rw [hp]; rfl⟩
          · exact Or.inl (by simpa [Function.update_apply, Ne.symm hs] using hpend)
      · by_cases hs : s = .chld
        · exact Reaps.of_draining (by simp [hs]) (Or.inl (by rw [hpc]; rfl))
        · refine h.keep (by rw [hpc]; rfl) (by simp [hpc, Pc.reaping]) (by simp [hp, Pc.inLoop])
            (fun c hc _ => by simpa using hc) (fun _ hpend => Or.inl ?_) (by simp)
            (by simp [hp, Pc.draining])
          simpa [Function.update_apply, Ne.symm hs] using hpend
      · exact ⟨by rw [hpc]; rfl, by simp [hpc, Pc.reaping], by simp [hpc, Pc.inLoop]⟩

/-- Nothing is started or reaped before the mask is set. -/
theorem early_step {cfg : Config τ} {σ σ' : State τ} {i : Input} (hstep : Step cfg σ i σ')
    (hearly : σ'.pc.early = true) : σ.pc.early = true ∧ σ'.trace = σ.trace := by
  cases hstep with
  | goto hg =>
      cases hg with
      | pidfile hp | pidfileFailed hp | createFailed hp | initFailed hp | maskFailed hp =>
          exact ⟨by rw [hp]; rfl, rfl⟩
      | started | unexpected | noChild | drained | childless | exit => cases hearly
      | @callback ctx =>
          have hpc : (callbackPc ctx σ).early = true := hearly
          rw [(callbackPc_late ctx σ).1] at hpc
          cases hpc
  | create hp =>
      refine ⟨by rw [hp]; rfl, ?_⟩
      unfold contextCreate
      split <;> rfl
  | load hp | assign hp | setCallback hp => exact ⟨by rw [hp]; rfl, rfl⟩
  | mask | enter | close | post => cases hearly
  | @start t rest =>
      rcases pc_taskRun (.startTasks rest) t σ with hpc | hpc <;> rw [hpc] at hearly <;>
        cases hearly
  | @forked t caller p =>
      rcases pc_taskRunForked cfg caller t p σ with hpc | hpc <;> rw [hpc] at hearly
      · rw [caller.early_pc] at hearly
        cases hearly
      · cases hearly
  | @forkFailed t caller =>
      have hpc : caller.pc.early = true := hearly
      rw [caller.early_pc] at hpc
      cases hpc
  | reap hp =>
      rcases pc_reaped cfg _ σ hp with ⟨t, hpc⟩ | hpc | hpc <;> rw [hpc] at hearly <;>
        cases hearly
  | childExit | adopt | raise => exact ⟨hearly, rfl⟩
  | @deliver s =>
      rcases pc_deliver s σ with hpc | ⟨-, hpc⟩ | hpc
      · exact ⟨by rwa [hpc] at hearly, by simp⟩
      · rw [hpc] at hearly
        cases hearly
      · rw [hpc] at hearly
        cases hearly

theorem early_trace {E : Env τ} {σ : State τ} (h : Reach (next E.cfg) anyInput (init E) σ) :
    σ.pc.early = true → σ.trace = [] :=
  h.invariant (P := fun σ => σ.pc.early = true → σ.trace = []) (fun _ => rfl)
    fun _ _ _ _ ih _ hn hearly => by
      obtain ⟨he, ht⟩ := early_step (step_of_next hn) hearly
      rw [ht, ih he]

/-- `context_sigmask` returned in `σ`. -/
def Masked (E : Env τ) (σ : State τ) : Prop :=
  ∃ σ₀, Reach (next E.cfg) anyInput (init E) σ₀ ∧ σ₀.pc = .sigmask ∧
    next E.cfg σ₀ (.sys .ok) = some σ

/-- The mask is set with no task started. -/
theorem Masked.spec {E : Env τ} {σ : State τ} (h : Masked E σ) :
    Reach (next E.cfg) anyInput (init E) σ ∧ σ.pc.early = false ∧ σ.pc.reaping = false ∧
      σ.trace = [] ∧ ∀ c ∈ σ.children, c.owner = none := by
  obtain ⟨σ₀, hr, hp, hn⟩ := h
  have ht := early_trace hr (by rw [hp]; rfl)
  obtain ⟨⟨es, hi⟩, hw⟩ := indexed_reach hr
  simp only [PcOk, hp] at hw
  obtain ⟨⟨ctx, hctx, -⟩, -⟩ : (∃ ctx, σ₀.ctx = some ctx ∧ _) ∧ _ := by
    have := ctl_reach hr
    simpa only [Ctl, hp] using this
  have hσ : σ = contextSigmask ctx σ₀ := by
    simp only [next, sysStep, hp, hctx] at hn
    exact (Option.some.inj hn).symm
  refine ⟨.step hr trivial hn, by rw [hσ]; rfl, by rw [hσ]; rfl, by rw [hσ]; exact ht, ?_⟩
  rw [hσ]
  intro c hc
  cases ho : c.owner with
  | none => rfl
  | some t =>
      obtain ⟨hm, hrun, -⟩ := hi.kids.owner c hc t ho
      exact absurd hrun (hw.2 t hm).2

theorem reaps_reach {E : Env τ} {σ₁ σ : State τ} (h₁ : Masked E σ₁)
    (h : Reach (next E.cfg) anyInput σ₁ σ) : Reaps σ₁ σ := by
  obtain ⟨hr, hlate, hreap, htr, -⟩ := h₁.spec
  refine h.invariant (P := Reaps σ₁) ⟨hlate, by simp [hreap], fun _ c hc _ => ?_⟩ ?_
  · exact Or.inr (Or.inl ⟨hc, by simp [htr]⟩)
  · exact fun σ i σ' hσ hi _ hn => reaps_step (ctl_reach (hr.trans hσ)) hi (step_of_next hn)

/-- No run waits in `pselect` with an exited child and no `SIGCHLD` pending. -/
def NoLostExit (E : Env τ) : Prop :=
  ∀ σ₀, Reach (next E.cfg) anyInput (init E) σ₀ → σ₀.pc = .sigmask →
    ∀ σ, Reach (next E.cfg) anyInput σ₀ σ → σ.pc = .pselect →
      (∃ c ∈ σ.children, c.exited = true) → σ.pending .chld = true

/-- A pending `SIGCHLD` does not let the process wait: `pselect` is interrupted,
and the `waitpid` loop follows. -/
theorem pending_enters {E : Env τ} {σ : State τ} (h : Reach (next E.cfg) anyInput (init E) σ)
    (hpc : σ.pc = .pselect) (hm : E.mask .chld = false) (hp : σ.pending .chld = true) :
    ∃ σ', runFrom (next E.cfg) σ [.deliver .chld, .sys .ok] = some σ' ∧ σ'.pc = .waitpid := by
  have hr := (ctl_reach h).running (by rw [hpc]; rfl)
  obtain ⟨ctx, hctx, -, -, hmask⟩ := hr.ctx
  have hb : σ.blocked .chld = false := by simp [State.blocked, hpc, hctx, hmask, hm]
  have ha : σ.alive = true := by simp [State.alive, hpc]
  have hd : next E.cfg σ (.deliver .chld) = some (deliver .chld σ) := by simp [next, ha, hp, hb]
  have hpc' : (deliver .chld σ).pc = .interrupted := by
    rw [deliver_pc, if_pos hr.contextLive, if_pos hpc]
  have he : next E.cfg (deliver .chld σ) (.sys .ok) = some { deliver .chld σ with
      trace := .enter :: (deliver .chld σ).trace
      pc := .waitpid } := by
    simp [next, sysStep, hpc']
  refine ⟨{ deliver .chld σ with
    trace := .enter :: (deliver .chld σ).trace
    pc := .waitpid }, ?_, rfl⟩
  rw [runFrom, hd, Option.bind_some, runFrom, he]
  rfl

/-- After the mask is set, a child that exits is pending as `SIGCHLD` when the
process waits; so is every exited child that `task_run` forked. The others had
exited when the mask was set, and are reaped at the first `waitpid` loop. -/
theorem exit_pending {E : Env τ} {σ₁ σ : State τ} (h₁ : Masked E σ₁)
    (h : Reach (next E.cfg) anyInput σ₁ σ) (hpc : σ.pc = .pselect) :
    (∀ c ∈ σ.children, c.exited = true →
      (c ∈ σ₁.children ∧ c.owner = none ∧ .enter ∉ σ.trace) ∨ σ.pending .chld = true) ∧
    (E.mask .chld = false → σ.pending .chld = true →
      ∃ σ', runFrom (next E.cfg) σ [.deliver .chld, .sys .ok] = some σ' ∧ σ'.pc = .waitpid) := by
  obtain ⟨hr, -, -, -, hown⟩ := h₁.spec
  refine ⟨fun c hc he => ?_, pending_enters (hr.trans h) hpc⟩
  rcases (reaps_reach h₁ h).zombie (by rw [hpc]; rfl) c hc he with hp | ⟨hc₁, ht⟩ | ⟨-, hd⟩
  · exact Or.inr hp
  · exact Or.inl ⟨hc₁, hown c hc₁, ht⟩
  · rw [hpc] at hd
    cases hd

/-- `oneTask`'s process exits while the supervisor still starts tasks. -/
theorem exit_pending_oneTask :
    ∃ σ₁ σ, Masked oneTask σ₁ ∧ Reach (next oneTask.cfg) anyInput σ₁ σ ∧ σ.pc = .pselect ∧
      ⟨100, some 0, true⟩ ∈ σ.children ∧ σ.pending .chld = true := by
  have hrun : ((runFrom (next oneTask.cfg) (init oneTask)
      [.sys .ok, .sys .ok, .sys .ok, .sys .ok, .sys .ok]).bind fun σ₀ =>
        (next oneTask.cfg σ₀ (.sys .ok)).bind fun σ₁ =>
          (runFrom (next oneTask.cfg) σ₁
            [.sys .ok, .sys (.pid 100), .childExit 100, .sys .ok]).map fun σ =>
              decide (σ₀.pc = .sigmask) && decide (σ.pc = .pselect) &&
                decide (⟨100, some 0, true⟩ ∈ σ.children)) = some true := by
    decide +kernel
  obtain ⟨σ₀, hσ₀, hrun⟩ := Option.bind_eq_some_iff.mp hrun
  obtain ⟨σ₁, hσ₁, hrun⟩ := Option.bind_eq_some_iff.mp hrun
  obtain ⟨σ, hσ, hst⟩ := Option.map_eq_some_iff.mp hrun
  simp only [Bool.and_eq_true, decide_eq_true_eq] at hst
  obtain ⟨⟨hp, hpc⟩, hc⟩ := hst
  have h₁ : Masked oneTask σ₁ := ⟨σ₀, Reach.of_runFrom hσ₀, hp, hσ₁⟩
  have h := Reach.of_runFrom hσ
  refine ⟨σ₁, σ, h₁, h, hpc, hc, ?_⟩
  rcases (exit_pending h₁ h hpc).1 _ hc rfl with ⟨-, ho, -⟩ | hp
  · cases ho
  · exact hp

/-- `oneTask` started by a process that leaves it a child. -/
def oneInherited : Env Nat :=
  { oneTask with
    children := [⟨50, none, false⟩]
    pid_nodup := by decide
    pid_pos := by decide
    foreign := by decide }

/-- The inherited child exits in `context_run` before the mask is set: its
`SIGCHLD` sets `bz_child`, and the process waits with nothing pending. -/
theorem not_noLostExit :
    oneInherited.mask .chld = false ∧ ¬ NoLostExit oneInherited := by
  refine ⟨rfl, fun h => ?_⟩
  have hrun : ((runFrom (next oneInherited.cfg) (init oneInherited)
      [.sys .ok, .sys .ok, .sys .ok, .sys .ok, .sys .ok]).bind fun σ₀ =>
        (runFrom (next oneInherited.cfg) σ₀
          [.childExit 50, .deliver .chld, .sys .ok, .sys .ok, .sys (.pid 100), .sys .ok]).map
            fun σ => decide (σ₀.pc = .sigmask) && decide (σ.pc = .pselect) &&
              decide (∃ c ∈ σ.children, c.exited = true) && !σ.pending .chld) = some true := by
    decide +kernel
  obtain ⟨σ₀, hσ₀, hrun⟩ := Option.bind_eq_some_iff.mp hrun
  obtain ⟨σ, hσ, hst⟩ := Option.map_eq_some_iff.mp hrun
  simp only [Bool.and_eq_true, decide_eq_true_eq, Bool.not_eq_true'] at hst
  obtain ⟨⟨⟨hp, hpc⟩, hc⟩, hn⟩ := hst
  have := h σ₀ (Reach.of_runFrom hσ₀) hp σ (Reach.of_runFrom hσ) hpc hc
  rw [hn] at this
  cases this

end Bitzer
