import Bitzer.Context.Reaping

/-!
# What happens to the tasks

`Progress` is a step of the supervisor as the tasks see it, in the states that
it can reach: there the tree operations succeed and a reaped child's task is
found. From it follow the number of starts of each task (`Counts`), what one
iteration of the `waitpid` loop does (`Restarts`), and which tasks run at all
(`Started`): those whose `fork` never failed.
-/

namespace Bitzer

open Lib

variable {τ : Type}

/-- The tasks that `context_start_tasks` or `task_run` is still to start. -/
def Pc.toStart : Pc τ → List τ
  | .startTasks rest => rest
  | .fork t caller => t :: caller.rest
  | _ => []

@[simp] theorem Caller.toStart_pc (caller : Caller τ) : caller.pc.toStart = caller.rest := by
  cases caller <;> rfl

/-- A step as the tasks and the history see it. -/
inductive Progress [DecidableEq τ] (cfg : Config τ) (σ σ' : State τ) : Prop
  | stay (ht : σ'.task = σ.task) (htr : σ'.trace = σ.trace)
      (hpc : σ'.pc = σ.pc ∨ (σ.pc = .pselect ∧ σ'.pc = .interrupted) ∨ σ'.pc = .handlerFault)
  | move (ha : σ.alive = true) (hf : ∀ t caller, σ.pc ≠ .fork t caller)
      (hf' : ∀ t caller, σ'.pc ≠ .fork t caller) (ht : σ'.task = σ.task) (htr : σ'.trace = σ.trace)
      (hpc : σ'.pc.inLoop = true → σ.pc.inLoop = true ∧ σ'.pc.toStart = σ.pc.toStart)
  | mask (hp : σ.pc = .sigmask) (ht : σ'.task = σ.task) (htr : σ'.trace = σ.trace)
      (hpc : σ'.pc = .startTasks cfg.tasks)
  | enter (hp : σ.pc = .interrupted) (ht : σ'.task = σ.task) (htr : σ'.trace = .enter :: σ.trace)
      (hpc : σ'.pc = .waitpid)
  | start {t : τ} {rest : List τ} (hp : σ.pc = .startTasks (t :: rest))
      (ht : σ'.task = Function.update σ.task t (taskReset (σ.task t)))
      (htr : σ'.trace = .taskRun t :: σ.trace)
      (hpc : σ'.pc = if (σ.task t).runnable then .fork t (.startTasks rest) else .startTasks rest)
  | forked {t : τ} {caller : Caller τ} {p : Int32} (hp : σ.pc = .fork t caller)
      (ht : σ'.task = Function.update σ.task t (taskStarted p (σ.task t)))
      (htr : σ'.trace = .fork t (some p) :: σ.trace) (hpc : σ'.pc = caller.pc)
  | failed {t : τ} {caller : Caller τ} (hp : σ.pc = .fork t caller) (ht : σ'.task = σ.task)
      (htr : σ'.trace = .fork t none :: σ.trace) (hpc : σ'.pc = caller.pc)
  | forget {c : Child τ} (hp : σ.pc = .waitpid) (hc : c ∈ σ.children) (ho : c.owner = none)
      (ht : σ'.task = σ.task) (htr : σ'.trace = .reap c.pid none :: σ.trace)
      (hpc : σ'.pc = .waitpid)
  | restart {c : Child τ} {t : τ} (hp : σ.pc = .waitpid) (hc : c ∈ σ.children)
      (ho : c.owner = some t) (ht : σ'.task = Function.update σ.task t (taskReset (σ.task t)))
      (htr : σ'.trace = .taskRun t :: .reap c.pid (some t) :: σ.trace)
      (hpc : σ'.pc = if (σ.task t).runnable then .fork t .restartTask else .waitpid)

theorem callbackPc_toStart (ctx : Context τ) (σ : State τ) :
    (callbackPc ctx σ).toStart = [] ∧ ∀ t caller, callbackPc ctx σ ≠ .fork t caller := by
  unfold callbackPc
  split
  · split
    · exact ⟨rfl, by simp⟩
    · split <;> exact ⟨rfl, by simp⟩
  · exact ⟨rfl, by simp⟩

section
variable [DecidableEq τ] {E : Env τ} {σ σ' : State τ} {i : Input}

theorem progress_goto {a : Answer} {pc : Pc τ} (hg : Goto σ a pc) :
    Progress E.cfg σ { σ with pc := pc } := by
  cases hg with
  | pidfile hp | pidfileFailed hp | createFailed hp | initFailed hp | maskFailed hp | exit hp =>
      exact .move (by simp [State.alive, hp]) (by simp [hp]) (by simp) rfl rfl (by simp [Pc.inLoop])
  | started hp | unexpected hp | noChild hp _ | drained hp _ | childless hp _ =>
      exact .move (by simp [State.alive, hp]) (by simp [hp]) (by simp) rfl rfl
        (by simp [hp, Pc.inLoop, Pc.toStart])
  | callback hp _ =>
      obtain ⟨hs, hf⟩ := callbackPc_toStart _ σ
      exact .move (by simp [State.alive, hp]) (by simp [hp]) hf rfl rfl
        fun _ => ⟨by simp [hp, Pc.inLoop], hs.trans (by rw [hp]; rfl)⟩

/-- What becomes of a reaped child. -/
theorem reaped_cases {c : Child τ} (hr : Reach (next E.cfg) anyInput (init E) σ)
    (hp : σ.pc = .waitpid) (hc : c ∈ σ.children) (hpc : (reaped E.cfg c σ).pc ≠ .treeFault) :
    (c.owner = none ∧ (reaped E.cfg c σ).task = σ.task ∧
      (reaped E.cfg c σ).trace = .reap c.pid none :: σ.trace ∧
      (reaped E.cfg c σ).pc = .waitpid) ∨
    ∃ t, c.owner = some t ∧
      (reaped E.cfg c σ).task = Function.update σ.task t (taskReset (σ.task t)) ∧
      (reaped E.cfg c σ).trace = .taskRun t :: .reap c.pid (some t) :: σ.trace ∧
      (reaped E.cfg c σ).pc = if (σ.task t).runnable then .fork t .restartTask else .waitpid := by
  obtain ⟨⟨es, hi⟩, -⟩ := indexed_reach hr
  obtain ⟨ctx, hctx, -⟩ := ((ctl_reach hr).running (by rw [hp]; rfl)).ctx
  rw [hi.reaped_eq (by simp [hctx]) hc] at hpc ⊢
  cases ho : c.owner with
  | none => exact Or.inl ⟨rfl, rfl, rfl, hp⟩
  | some t =>
      simp only [ho] at hpc ⊢
      unfold contextRestartTask at hpc ⊢
      split at hpc
      · exact absurd rfl hpc
      · exact Or.inr ⟨t, rfl, rfl, rfl, rfl⟩

/-- The steps of the supervisor. -/
theorem progress_of_next (hr : Reach (next E.cfg) anyInput (init E) σ)
    (hn : next E.cfg σ i = some σ') : Progress E.cfg σ σ' := by
  have hfault : σ'.pc ≠ .treeFault := not_treeFault (.step hr trivial hn)
  cases step_of_next hn with
  | goto hg => exact progress_goto hg
  | create hp =>
      unfold contextCreate
      split <;> exact .move (by simp [State.alive, hp]) (by simp [hp]) (by simp) rfl rfl
        (by simp [Pc.inLoop])
  | load hp | assign hp | setCallback hp | close hp | post hp =>
      exact .move (by simp [State.alive, hp]) (by simp [hp]) (by simp) rfl rfl (by simp [Pc.inLoop])
  | @mask ctx hp hctx =>
      have hctl := ctl_reach hr
      simp only [Ctl, hp, hctx] at hctl
      obtain ⟨⟨ctx', hctx', hconf, -⟩, -⟩ := hctl
      cases hctx'
      exact .mask hp rfl rfl (by simp [contextSigmask, hconf])
  | start hp => exact .start hp rfl rfl rfl
  | @forked t caller p hp _ _ =>
      obtain ⟨mem, heq⟩ := taskRunForked_eq hfault
      rw [heq]
      exact .forked hp rfl rfl rfl
  | forkFailed hp => exact .failed hp rfl rfl rfl
  | enter hp _ => exact .enter hp rfl rfl rfl
  | reap hp hc _ =>
      rcases reaped_cases hr hp hc hfault with ⟨ho, ht, htr, hpc⟩ | ⟨t, ho, ht, htr, hpc⟩
      · exact .forget hp hc ho ht htr hpc
      · exact .restart hp hc ho ht htr hpc
  | childExit | adopt | raise => exact .stay rfl rfl (Or.inl rfl)
  | @deliver s => exact .stay (by simp) (by simp) (pc_deliver s σ)

/-! ## How often a task was started -/

/-- The task whose child `waitpid` returned. -/
def Event.reaped : Event τ → Option τ
  | .reap _ owner => owner
  | _ => none

/-- The number of exits of a task's processes that have been reaped. -/
def exits (t : τ) (trace : List (Event τ)) : Nat := (trace.filterMap Event.reaped).count t

/-- Every start of a task has been followed by an exit that was reaped, but the
last one where the task runs. -/
def Counts (cfg : Config τ) (σ : State τ) : Prop :=
  ∀ t ∈ cfg.tasks, (σ.task t).startCount =
    UInt64.ofNat (exits t σ.trace) + if (σ.task t).status = .running then 1 else 0

theorem exits_cons_other {e : Event τ} (he : e.reaped = none) (t : τ) (tr : List (Event τ)) :
    exits t (e :: tr) = exits t tr := by
  rw [exits, List.filterMap_cons_none he, exits]

theorem exits_reap (t u : τ) (p : Int32) (tr : List (Event τ)) :
    exits u (.reap p (some t) :: tr) = exits u tr + if t = u then 1 else 0 := by
  simp [exits, Event.reaped, List.count_cons]

theorem counts_step (hr : Reach (next E.cfg) anyInput (init E) σ) (h : Counts E.cfg σ)
    (hp : Progress E.cfg σ σ') : Counts E.cfg σ' := by
  obtain ⟨⟨es, hi⟩, hpc⟩ := indexed_reach hr
  intro u hu
  have hcu := h u hu
  cases hp with
  | stay ht htr | move _ _ _ ht htr | mask _ ht htr => rwa [ht, htr]
  | enter _ ht htr | failed _ ht htr | forget _ _ _ ht htr =>
      rwa [ht, htr, exits_cons_other rfl]
  | @start t rest hp ht htr =>
      simp only [PcOk, hp] at hpc
      have hnr := (hpc.2 t List.mem_cons_self).2
      rw [ht, htr, exits_cons_other rfl]
      by_cases hut : u = t
      · subst hut
        simpa [hnr] using hcu
      · rwa [Function.update_of_ne hut]
  | @forked t caller p hp ht htr =>
      simp only [PcOk, hp] at hpc
      have hnr := (hpc.2 t List.mem_cons_self).2
      rw [ht, htr, exits_cons_other rfl]
      by_cases hut : u = t
      · subst hut
        simp only [hnr, if_false] at hcu
        simp [hcu]
      · rwa [Function.update_of_ne hut]
  | @restart c t hp hc ho ht htr =>
      obtain ⟨-, hrun, -⟩ := hi.kids.owner c hc t ho
      rw [ht, htr, exits_cons_other rfl, exits_reap]
      by_cases hut : u = t
      · subst hut
        simp only [hrun, if_true] at hcu
        simp [hcu, UInt64.ofNat_add]
      · simpa [Function.update_of_ne hut, Ne.symm hut] using hcu

theorem counts_reach (hr : Reach (next E.cfg) anyInput (init E) σ) : Counts E.cfg σ :=
  hr.invariant (fun t ht => by
    obtain ⟨-, hs, hst⟩ := E.cfg.fresh t ht
    simp [init, hs, hst, exits]) fun _ _ _ hr h _ hn => counts_step hr h (progress_of_next hr hn)

/-! ## One iteration of the `waitpid` loop -/

/-- The task that `task_run` was called on. -/
def Event.ran : Event τ → Option τ
  | .taskRun t => some t
  | _ => none

/-- The steps of an iteration, after its `waitpid`. -/
def inIteration (σ : State τ) (_ : Input) : Prop := σ.pc ≠ .waitpid

instance (σ : State τ) (i : Input) : Decidable (inIteration σ i) :=
  inferInstanceAs (Decidable (σ.pc ≠ .waitpid))

/-- What an iteration that reaped `c` in `σ` has done so far. -/
structure Restarts (σ : State τ) (c : Child τ) (σ' : State τ) : Prop where
  pc : σ'.pc = .waitpid ∨ (∃ t, c.owner = some t ∧ σ'.pc = .fork t .restartTask) ∨
    σ'.alive = false
  ran : ∃ recent, σ'.trace = recent ++ σ.trace ∧ recent.filterMap Event.ran = c.owner.toList
  others : ∀ u, c.owner ≠ some u → σ'.task u = σ.task u

/-- `waitpid` returns the child that has the pid. -/
theorem next_reap {c : Child τ} (hr : Reach (next E.cfg) anyInput (init E) σ)
    (hpc : σ.pc = .waitpid) (hc : c ∈ σ.children)
    (hn : next E.cfg σ (.sys (.pid c.pid)) = some σ') : σ' = reaped E.cfg c σ := by
  obtain ⟨⟨es, hi⟩, -⟩ := indexed_reach hr
  simp only [next, sysStep, hpc] at hn
  obtain ⟨d, hd, rfl⟩ := Option.map_eq_some_iff.mp hn
  have hp := List.find?_some hd
  simp only [Bool.and_eq_true, beq_iff_eq] at hp
  rw [hi.kids.eq_of_pid (List.mem_of_find?_eq_some hd) hc hp.2]

theorem restarts_reaped {c : Child τ} (hr : Reach (next E.cfg) anyInput (init E) σ)
    (hpc : σ.pc = .waitpid) (hc : c ∈ σ.children)
    (hn : next E.cfg σ (.sys (.pid c.pid)) = some σ') : Restarts σ c σ' := by
  have hfault := not_treeFault (.step hr trivial hn)
  obtain rfl := next_reap hr hpc hc hn
  rcases reaped_cases hr hpc hc hfault with ⟨ho, ht, htr, hp⟩ | ⟨t, ho, ht, htr, hp⟩
  · exact ⟨Or.inl hp, ⟨[.reap c.pid none], htr, by rw [ho]; rfl⟩, fun u _ => by rw [ht]⟩
  · refine ⟨?_, ⟨[.taskRun t, .reap c.pid (some t)], htr, by rw [ho]; rfl⟩, fun u hu => ?_⟩
    · rw [hp]
      split
      · exact Or.inr (Or.inl ⟨t, ho, rfl⟩)
      · exact Or.inl rfl
    · rw [ht, Function.update_of_ne fun hut => hu (by rw [ho, hut])]

theorem restarts_step {c : Child τ} {σ₁ σ₂ : State τ} (h : Restarts σ c σ₁)
    (hpc : σ₁.pc ≠ .waitpid) (hp : Progress E.cfg σ₁ σ₂) : Restarts σ c σ₂ := by
  obtain ⟨recent, htr₀, hran⟩ := h.ran
  -- the iteration is at its `fork`, or a handler has faulted
  have hat : (∃ t, c.owner = some t ∧ σ₁.pc = .fork t .restartTask) ∨ σ₁.alive = false :=
    h.pc.resolve_left hpc
  have hfork : ∀ {t caller}, σ₁.pc = .fork t caller → c.owner = some t ∧ caller = .restartTask := by
    intro t caller hp
    rcases hat with ⟨u, hu, hpu⟩ | ha
    · rw [hpu] at hp
      cases hp
      exact ⟨hu, rfl⟩
    · simp [State.alive, hp] at ha
  cases hp with
  | stay ht htr hpc' =>
      refine ⟨?_, ⟨recent, htr.trans htr₀, hran⟩, ht ▸ h.others⟩
      rcases hpc' with hpc' | ⟨hp, -⟩ | hpc'
      · rcases hat with ⟨t, ho, hp⟩ | ha
        · exact Or.inr (Or.inl ⟨t, ho, hpc'.trans hp⟩)
        · exact Or.inr (Or.inr (by rwa [State.alive, hpc']))
      · rcases hat with ⟨t, -, hp'⟩ | ha
        · rw [hp] at hp'
          cases hp'
        · simp [State.alive, hp] at ha
      · exact Or.inr (Or.inr (by rw [State.alive, hpc']))
  | move ha hf =>
      rcases hat with ⟨t, -, hp⟩ | ha'
      · exact absurd hp (hf t _)
      · rw [ha] at ha'
        cases ha'
  | mask hp | enter hp | start hp =>
      rcases hat with ⟨t, -, hp'⟩ | ha
      · rw [hp] at hp'
        cases hp'
      · simp [State.alive, hp] at ha
  | @forked t caller p hp ht htr hpc' =>
      obtain ⟨ho, rfl⟩ := hfork hp
      refine ⟨Or.inl hpc', ⟨.fork t (some p) :: recent, by rw [htr, htr₀]; rfl, hran⟩, ?_⟩
      intro u hu
      rw [ht, Function.update_of_ne (fun hut => hu (by rw [ho, hut]))]
      exact h.others u hu
  | @failed t caller hp ht htr hpc' =>
      obtain ⟨ho, rfl⟩ := hfork hp
      exact ⟨Or.inl hpc', ⟨.fork t none :: recent, by rw [htr, htr₀]; rfl, hran⟩, ht ▸ h.others⟩
  | forget hp | restart hp => exact absurd hp hpc

/-- Nothing of the task has changed, and it is found under its pid as before. -/
def Untouched (cfg : Config τ) (σ σ' : State τ) (u : τ) : Prop :=
  (σ'.task u).pid = (σ.task u).pid ∧ (σ'.task u).status = (σ.task u).status ∧
    (σ'.task u).startCount = (σ.task u).startCount ∧
    σ'.find cfg (σ'.task u).pid = σ.find cfg (σ.task u).pid

theorem Restarts.untouched {c : Child τ} {u : τ} (h : Restarts σ c σ')
    (hr : Reach (next E.cfg) anyInput (init E) σ) (hr' : Reach (next E.cfg) anyInput (init E) σ')
    (hl : σ.pc.inLoop = true) (hl' : σ'.pc.inLoop = true) (hu : u ∈ E.cfg.tasks)
    (hne : c.owner ≠ some u) : Untouched E.cfg σ σ' u := by
  obtain ⟨⟨es, hi⟩, -⟩ := indexed_reach hr
  obtain ⟨⟨es', hi'⟩, -⟩ := indexed_reach hr'
  obtain ⟨ctx, hctx, -⟩ := ((ctl_reach hr).running hl).ctx
  obtain ⟨ctx', hctx', -⟩ := ((ctl_reach hr').running hl').ctx
  have ht := h.others u hne
  refine ⟨by rw [ht], by rw [ht], by rw [ht], ?_⟩
  rw [hi.find_task (by simp [hctx]) hu, hi'.find_task (by simp [hctx']) hu, ht]

/-- One iteration of the `waitpid` loop, from its `waitpid` in `σ` to the next
one in `σ₂`, for the child `c`: `task_run` is called once, on the task whose
process `c` was, and on none if it was no task's. -/
structure Attributed (cfg : Config τ) (c : Child τ) (σ σ₂ : State τ) : Prop where
  owner : ∀ t ∈ cfg.tasks, c.owner = some t ↔
    (σ.task t).status = .running ∧ (σ.task t).pid = c.pid
  ran : ∃ recent, σ₂.trace = recent ++ σ.trace ∧ recent.filterMap Event.ran = c.owner.toList
  others : ∀ u ∈ cfg.tasks, c.owner ≠ some u → Untouched cfg σ σ₂ u

/-- Every reaped exit restarts its own task, once; and each task has been
started once for each of its exits and once more where it is in the tree. -/
theorem restart_once (E : Env τ) :
    (∀ σ σ₁ σ₂ c, Reach (next E.cfg) anyInput (init E) σ → σ.pc = .waitpid → c ∈ σ.children →
      next E.cfg σ (.sys (.pid c.pid)) = some σ₁ → Reach (next E.cfg) inIteration σ₁ σ₂ →
      σ₂.pc = .waitpid → Attributed E.cfg c σ σ₂) ∧
    ∀ σ, Reach (next E.cfg) anyInput (init E) σ → σ.pc.inLoop = true →
      ∃ xs, InOrder σ.mem .sentinel xs ∧ ∀ t ∈ E.cfg.tasks, (σ.task t).startCount =
        UInt64.ofNat (exits t σ.trace) + if .task t ∈ xs then 1 else 0 := by
  refine ⟨fun σ σ₁ σ₂ c hr hpc hc hn h hpc₂ => ?_, fun σ hr hl => ?_⟩
  · obtain ⟨⟨es, hi⟩, -⟩ := indexed_reach hr
    have hr₁ : Reach (next E.cfg) anyInput (init E) σ₁ := .step hr trivial hn
    have hrest : Restarts σ c σ₂ := h.invariant (restarts_reaped hr hpc hc hn)
      fun _ _ _ hs hres hok hn' => restarts_step hres hok (progress_of_next (hr₁.trans hs.any) hn')
    refine ⟨fun t ht => ⟨fun ho => ?_, fun ⟨hrun, hp⟩ => ?_⟩, hrest.ran, fun u hu hne => ?_⟩
    · exact (hi.kids.owner c hc t ho).2
    · obtain ⟨d, hd, hdo, hdp⟩ := hi.kids.running t ht hrun
      rw [hi.kids.eq_of_pid hc hd (by rw [hdp, hp]), hdo]
    · exact hrest.untouched hr (hr₁.trans h.any) (by rw [hpc]; rfl) (by rw [hpc₂]; rfl) hu hne
  · obtain ⟨⟨es, hi⟩, -⟩ := indexed_reach hr
    obtain ⟨ctx, hctx, -⟩ := ((ctl_reach hr).running hl).ctx
    refine ⟨es.map Prod.fst, (hi.holds (by simp [hctx])).inOrder, fun t ht => ?_⟩
    rw [counts_reach hr t ht]
    congr 1
    simp only [hi.entries.mem_fst, ht, true_and]

end

/-- `oneTask`'s process exits and is replaced. -/
theorem restart_once_oneTask :
    ∃ σ σ₂, Attributed oneTask.cfg ⟨100, some 0, true⟩ σ σ₂ ∧ (σ₂.task 0).startCount = 2 := by
  have hrun : ((runFrom (next oneTask.cfg) (init oneTask)
      [.sys .ok, .sys .ok, .sys .ok, .sys .ok, .sys .ok, .sys .ok, .sys .ok, .sys (.pid 100),
        .sys .ok, .childExit 100, .deliver .chld, .sys .ok]).bind fun σ =>
          (next oneTask.cfg σ (.sys (.pid 100))).bind fun σ₁ =>
            (runFrom (guarded (next oneTask.cfg) inIteration) σ₁ [.sys (.pid 101)]).map fun σ₂ =>
              decide (σ.pc = .waitpid) && decide (⟨100, some 0, true⟩ ∈ σ.children) &&
                decide (σ₂.pc = .waitpid) && decide ((σ₂.task 0).startCount = 2)) = some true := by
    decide +kernel
  obtain ⟨σ, hσ, hrun⟩ := Option.bind_eq_some_iff.mp hrun
  obtain ⟨σ₁, hn, hrun⟩ := Option.bind_eq_some_iff.mp hrun
  obtain ⟨σ₂, hσ₂, hst⟩ := Option.map_eq_some_iff.mp hrun
  simp only [Bool.and_eq_true, decide_eq_true_eq] at hst
  obtain ⟨⟨⟨hpc, hc⟩, hpc₂⟩, hcount⟩ := hst
  exact ⟨σ, σ₂, (restart_once oneTask).1 σ σ₁ σ₂ _ (Reach.of_runFrom hσ) hpc hc hn
    (Reach.of_guarded hσ₂) hpc₂, hcount⟩

/-! ## Which tasks run -/

/-- Of the tasks with a name and a path, those run whose `fork` never failed,
once they have been started. -/
def Started (cfg : Config τ) (σ : State τ) : Prop :=
  ∀ t ∈ cfg.tasks, (σ.task t).runnable = true →
    ((σ.task t).status = .running ↔ .fork t none ∉ σ.trace ∧ t ∉ σ.pc.toStart) ∧
    (t ∈ σ.pc.toStart → .fork t none ∉ σ.trace)

theorem Started.congr {cfg : Config τ} {σ σ' : State τ} (h : Started cfg σ)
    (ht : σ'.task = σ.task) (htr : ∀ t, .fork t none ∈ σ'.trace ↔ .fork t none ∈ σ.trace)
    (hs : σ'.pc.toStart = σ.pc.toStart) : Started cfg σ' := by
  intro t hm hrun
  rw [ht] at hrun ⊢
  rw [hs, htr]
  exact h t hm hrun

/-- A step that only concerns the task `t`. -/
theorem Started.off {cfg : Config τ} {σ σ' : State τ} {t : τ} (h : Started cfg σ)
    (htask : ∀ u ≠ t, σ'.task u = σ.task u)
    (htr : ∀ u ≠ t, .fork u none ∈ σ'.trace ↔ .fork u none ∈ σ.trace)
    (hs : ∀ u ≠ t, u ∈ σ'.pc.toStart ↔ u ∈ σ.pc.toStart)
    (ht : t ∈ cfg.tasks → (σ'.task t).runnable = true →
      ((σ'.task t).status = .running ↔ .fork t none ∉ σ'.trace ∧ t ∉ σ'.pc.toStart) ∧
      (t ∈ σ'.pc.toStart → .fork t none ∉ σ'.trace)) : Started cfg σ' := by
  classical
  intro u hm hrun
  by_cases hut : u = t
  · subst hut
    exact ht hm hrun
  · rw [htask u hut] at hrun ⊢
    rw [htr u hut, hs u hut]
    exact h u hm hrun

/-- The task runs and is in the tree. -/
def Runs (σ : State τ) (t : τ) : Prop :=
  (σ.task t).status = .running ∧ ∃ xs, InOrder σ.mem .sentinel xs ∧ .task t ∈ xs

/-- A call of `context_event_handler` has returned that entered its loop after
the history `older`, and in which no `fork` failed. -/
def Returned (σ : State τ) (older : List (Event τ)) : Prop :=
  σ.pc = .callback ∧ ∃ recent, σ.trace = recent ++ .enter :: older ∧ .enter ∉ recent ∧
    ∀ u, .fork u none ∉ recent

section
variable [DecidableEq τ] {E : Env τ} {σ σ' : State τ} {i : Input}

theorem started_step (hr : Reach (next E.cfg) anyInput (init E) σ)
    (h : σ.pc.inLoop = true → Started E.cfg σ) (hp : Progress E.cfg σ σ')
    (hl : σ'.pc.inLoop = true) : Started E.cfg σ' := by
  obtain ⟨⟨es, hi⟩, hpc⟩ := indexed_reach hr
  cases hp with
  | stay ht htr hpc' =>
      have htr' : ∀ t : τ, .fork t none ∈ σ'.trace ↔ .fork t none ∈ σ.trace := by simp [htr]
      rcases hpc' with hpc' | ⟨hp, hpc'⟩ | hpc'
      · exact (h (hpc' ▸ hl)).congr ht htr' (by rw [hpc'])
      · exact (h (by rw [hp]; rfl)).congr ht htr' (by rw [hp, hpc']; rfl)
      · rw [hpc'] at hl
        cases hl
  | move _ _ _ ht htr hpc' => exact (h (hpc' hl).1).congr ht (by simp [htr]) (hpc' hl).2
  | mask hp ht htr hpc' =>
      simp only [PcOk, hp] at hpc
      have htr₀ := early_trace hr (by rw [hp]; rfl)
      intro t hm _
      have hnr := (hpc.2 t hm).2
      simp [ht, htr, hpc', htr₀, Pc.toStart, hnr, hm]
  | enter hp ht htr hpc' =>
      exact (h (by rw [hp]; rfl)).congr ht (by simp [htr]) (by rw [hp, hpc']; rfl)
  | forget hp _ _ ht htr hpc' =>
      exact (h (by rw [hp]; rfl)).congr ht (by simp [htr]) (by rw [hp, hpc'])
  | @start t rest hp ht htr hpc' =>
      have hs := h (by rw [hp]; rfl)
      simp only [PcOk, hp] at hpc
      obtain ⟨-, hnr⟩ := hpc.2 t List.mem_cons_self
      refine hs.off (t := t) (fun u hut => ?_) (fun u hut => ?_) (fun u hut => ?_) fun hm hrun => ?_
      · rw [ht, Function.update_of_ne hut]
      · simp [htr]
      · rw [hp, hpc']
        split <;> simp [Pc.toStart, Caller.rest, hut]
      · -- it is forked next
        have hrun : (σ.task t).runnable = true := by simpa [ht] using hrun
        have hnf := (hs t hm hrun).2 (by rw [hp]; exact List.mem_cons_self)
        simpa [ht, htr, hpc', hrun, Pc.toStart, Caller.rest] using hnf
  | @forked t caller p hp ht htr hpc' =>
      have hs := h (by rw [hp]; rfl)
      simp only [PcOk, hp] at hpc
      refine hs.off (t := t) (fun u hut => ?_) (fun u hut => ?_) (fun u hut => ?_) fun hm hrun => ?_
      · rw [ht, Function.update_of_ne hut]
      · simp [htr]
      · rw [hp, hpc', Caller.toStart_pc]
        simp [Pc.toStart, hut]
      · have hrun : (σ.task t).runnable = true := by simpa [ht] using hrun
        have hnf := (hs t hm hrun).2 (by rw [hp]; exact List.mem_cons_self)
        have hnm := (List.nodup_cons.mp hpc.1).1
        simp [ht, htr, hpc', hnf, hnm]
  | @failed t caller hp ht htr hpc' =>
      have hs := h (by rw [hp]; rfl)
      simp only [PcOk, hp] at hpc
      obtain ⟨-, hnr⟩ := hpc.2 t List.mem_cons_self
      refine hs.off (t := t) (fun u hut => ?_) (fun u hut => ?_) (fun u hut => ?_) fun hm hrun => ?_
      · rw [ht]
      · simp [htr, hut]
      · rw [hp, hpc', Caller.toStart_pc]
        simp [Pc.toStart, hut]
      · -- it is forgotten
        have hnm := (List.nodup_cons.mp hpc.1).1
        simp [ht, htr, hpc', hnr, hnm]
  | @restart c t hp hc ho ht htr hpc' =>
      have hs := h (by rw [hp]; rfl)
      obtain ⟨-, hrunning, -⟩ := hi.kids.owner c hc t ho
      refine hs.off (t := t) (fun u hut => ?_) (fun u hut => ?_) (fun u hut => ?_) fun hm hrun => ?_
      · rw [ht, Function.update_of_ne hut]
      · simp [htr]
      · rw [hp, hpc']
        split <;> simp [Pc.toStart, Caller.rest, hut]
      · have hrun : (σ.task t).runnable = true := by simpa [ht] using hrun
        have hnf := ((hs t hm hrun).1.mp hrunning).1
        simp [ht, htr, hpc', hrun, Pc.toStart, hnf]

/-- At the end of every wake-up, the tasks that run are those whose `fork` never
failed. -/
theorem started_reach (hr : Reach (next E.cfg) anyInput (init E) σ) :
    σ.pc.inLoop = true → Started E.cfg σ :=
  hr.invariant (P := fun σ => σ.pc.inLoop = true → Started E.cfg σ) (fun h => by cases h)
    fun _ _ _ hr h _ hn => started_step hr h (progress_of_next hr hn)

theorem runs_iff {t : τ} (hr : Reach (next E.cfg) anyInput (init E) σ)
    (hl : σ.pc.inLoop = true) (hm : t ∈ E.cfg.tasks) :
    Runs σ t ↔ (σ.task t).status = .running := by
  obtain ⟨⟨es, hi⟩, -⟩ := indexed_reach hr
  obtain ⟨ctx, hctx, -⟩ := ((ctl_reach hr).running hl).ctx
  have hh := hi.holds (by simp [hctx])
  exact ⟨fun h => h.1, fun h => ⟨h, _, hh.inOrder, hi.entries.mem_fst.mpr ⟨hm, h⟩⟩⟩

/-- A task whose `fork` failed runs again after the next call of
`context_event_handler` in which none fails. -/
def FailedForkRecovers (E : Env τ) : Prop :=
  ∀ σ older, Reach (next E.cfg) anyInput (init E) σ → Returned σ older →
    ∀ t ∈ E.cfg.tasks, (σ.task t).runnable = true → .fork t none ∈ older → Runs σ t

/-- It does so if its `fork` did not fail: a task runs after such a call if and
only if no `fork` has ever failed for it. -/
theorem recovers_iff {older : List (Event τ)} {t : τ}
    (hr : Reach (next E.cfg) anyInput (init E) σ) (hret : Returned σ older)
    (hm : t ∈ E.cfg.tasks) (hrun : (σ.task t).runnable = true) :
    ((.fork t none ∈ older → Runs σ t) ↔ .fork t none ∉ older) ∧
      (Runs σ t ↔ .fork t none ∉ older) := by
  obtain ⟨hpc, recent, htr, -, hnf⟩ := hret
  have hl : σ.pc.inLoop = true := by rw [hpc]; rfl
  have hruns : Runs σ t ↔ .fork t none ∉ older := by
    rw [runs_iff hr hl hm, (started_reach hr hl t hm hrun).1, htr, hpc]
    simp [Pc.toStart, hnf]
  refine ⟨?_, hruns⟩
  rw [hruns]
  exact ⟨fun h hf => h hf hf, fun h hf => absurd hf h⟩

end

/-- `oneTask`'s process exits and runs again; `SIGHUP` then wakes the
supervisor. -/
theorem recovers_oneTask :
    ∃ σ older, Reach (next oneTask.cfg) anyInput (init oneTask) σ ∧ Returned σ older ∧
      Runs σ 0 := by
  have hrun : (runFrom (next oneTask.cfg) (init oneTask)
      [.sys .ok, .sys .ok, .sys .ok, .sys .ok, .sys .ok, .sys .ok, .sys .ok, .sys (.pid 100),
        .sys .ok, .childExit 100, .deliver .chld, .sys .ok, .sys (.pid 100), .sys (.pid 101),
        .sys .zero, .sys .ok, .raise .hup, .deliver .hup, .sys .ok, .sys .zero]).map
      (fun σ => decide (σ.pc = .callback) && (σ.task 0).runnable && decide (σ.trace =
        [.enter, .fork 0 (some 101), .taskRun 0, .reap 100 (some 0), .enter, .fork 0 (some 100),
          .taskRun 0])) = some true := by
    decide +kernel
  obtain ⟨σ, hσ, hst⟩ := Option.map_eq_some_iff.mp hrun
  simp only [Bool.and_eq_true, decide_eq_true_eq] at hst
  obtain ⟨⟨hpc, hrun⟩, htr⟩ := hst
  have hr := Reach.of_runFrom hσ
  have hret : Returned σ _ := ⟨hpc, [], htr, by simp, by simp⟩
  exact ⟨σ, _, hr, hret, (recovers_iff hr hret (by decide) hrun).2.mpr (by decide)⟩

/-- `oneTask`'s process exits, the `fork` of its restart fails, and `SIGHUP`
wakes the supervisor: the task has no node, so nothing starts it. -/
theorem not_failedForkRecovers : ¬ FailedForkRecovers oneTask := by
  intro h
  have hrun : (runFrom (next oneTask.cfg) (init oneTask)
      [.sys .ok, .sys .ok, .sys .ok, .sys .ok, .sys .ok, .sys .ok, .sys .ok, .sys (.pid 100),
        .sys .ok, .childExit 100, .deliver .chld, .sys .ok, .sys (.pid 100), .sys .err,
        .sys .err, .sys .ok, .raise .hup, .deliver .hup, .sys .ok, .sys .err]).map
      (fun σ => decide (σ.pc = .callback) && (σ.task 0).runnable && decide (σ.trace =
        [.enter, .fork 0 none, .taskRun 0, .reap 100 (some 0), .enter, .fork 0 (some 100),
          .taskRun 0]) && decide ((σ.task 0).status = .finished)) = some true := by
    decide +kernel
  obtain ⟨σ, hσ, hst⟩ := Option.map_eq_some_iff.mp hrun
  simp only [Bool.and_eq_true, decide_eq_true_eq] at hst
  obtain ⟨⟨⟨hpc, hrun⟩, htr⟩, hfin⟩ := hst
  have hret : Returned σ _ := ⟨hpc, [], htr, by simp, by simp⟩
  have hruns := h σ _ (Reach.of_runFrom hσ) hret 0 (by decide) hrun (by decide)
  rw [hruns.1] at hfin
  cases hfin

end Bitzer
