import Bitzer.Context.Restart
import Bitzer.Context.Signals

/-!
# The history of the tasks

The events of a run, task by task and over all tasks. The events about one task
are those of its processes one after the other (`life`): `task_run`, the `fork`
in it, and the process reaped, which is at once followed by the next `task_run`.
Over all tasks, `task_run` is called on the listed tasks in their order, and
after that on the owners of the reaped processes, in the order in which they are
reaped.
-/

namespace Bitzer

open Lib

variable {τ : Type}

/-- Where a task is in its life. -/
inductive Phase where
  /-- `task_run` was not called on it yet. -/
  | unborn
  | forking
  | running (p : Int32)
  | reaped
  /-- `task_run` returned `ERROR`. -/
  | lost
  deriving DecidableEq

/-- The phase after an event about the task, if the event may come there. -/
def Phase.next (runnable : Bool) : Phase → Event τ → Option Phase
  | .unborn, .taskRun _ => some (if runnable then .forking else .lost)
  | .reaped, .taskRun _ => some (if runnable then .forking else .lost)
  | .forking, .fork _ (some p) => some (.running p)
  | .forking, .fork _ none => some .lost
  | .running p, .reap q _ => if q = p then some .reaped else none
  | _, _ => none

/-- The phase after the events, the first one first. -/
def life (runnable : Bool) (es : List (Event τ)) : Option Phase :=
  es.foldlM (Phase.next runnable) .unborn

/-- The task that an event is about. -/
def Event.task? : Event τ → Option τ
  | .taskRun t => some t
  | .fork t _ => some t
  | .enter => none
  | .reap _ owner => owner

/-- What the state says of a task in a phase. Between two steps of the process no
task is reaped and not run again. -/
def InPhase (σ : State τ) (t : τ) : Phase → Prop
  | .unborn => (σ.task t).status = .init ∧ (∀ caller, σ.pc ≠ .fork t caller) ∧
      (σ.pc.inLoop = true → t ∈ σ.pc.toStart)
  | .forking => (σ.task t).status = .finished ∧ ∃ caller, σ.pc = .fork t caller
  | .running p => (σ.task t).status = .running ∧ (σ.task t).pid = p
  | .reaped => False
  | .lost => (σ.task t).status = .finished ∧ t ∉ σ.pc.toStart

/-- The calls of `task_run`, the first one first. -/
def State.ran (σ : State τ) : List τ := σ.trace.reverse.filterMap Event.ran

/-- The owners of the reaped processes, the first one first. -/
def State.reapedOwners (σ : State τ) : List τ := σ.trace.reverse.filterMap Event.reaped

/-- The tasks that `context_start_tasks` has not called `task_run` on. -/
def Pc.notRun : Pc τ → List τ
  | .startTasks rest => rest
  | .fork _ caller => caller.rest
  | _ => []

theorem life_concat {r : Bool} {es : List (Event τ)} {ph : Phase} (e : Event τ)
    (h : life r es = some ph) : life r (es ++ [e]) = ph.next r e := by
  have hsplit : life r (es ++ [e]) = (life r es).bind fun ph => ph.next r e := by
    simp [life, List.foldlM_append]
  rw [hsplit, h]
  rfl

theorem toStart_of_not_inLoop {pc : Pc τ} (h : pc.inLoop = false) : pc.toStart = [] := by
  cases pc with
  | startTasks | fork => cases h
  | _ => rfl

section
variable {σ σ' : State τ} {t u : τ} {ph : Phase}

/-- A step that does not concern the task. -/
theorem InPhase.off (h : InPhase σ u ph) (ht : σ'.task u = σ.task u)
    (hf : ∀ caller, σ'.pc = .fork u caller ↔ σ.pc = .fork u caller)
    (hs : u ∈ σ'.pc.toStart → u ∈ σ.pc.toStart)
    (hl : σ'.pc.inLoop = true → σ.pc.inLoop = true ∧ (u ∈ σ.pc.toStart → u ∈ σ'.pc.toStart)) :
    InPhase σ' u ph := by
  cases ph with
  | unborn =>
      obtain ⟨hst, hnf, hin⟩ := h
      exact ⟨ht ▸ hst, fun caller hp => hnf caller ((hf caller).mp hp),
        fun hp => (hl hp).2 (hin (hl hp).1)⟩
  | forking =>
      obtain ⟨hst, caller, hp⟩ := h
      exact ⟨ht ▸ hst, caller, (hf caller).mpr hp⟩
  | running p => exact ⟨ht ▸ h.1, ht ▸ h.2⟩
  | reaped => exact h
  | lost => exact ⟨ht ▸ h.1, fun hm => h.2 (hs hm)⟩

/-- A task that is to be started has not been run. -/
theorem InPhase.unborn_of_waiting (h : InPhase σ t ph) (hm : t ∈ σ.pc.toStart)
    (hnr : (σ.task t).status ≠ .running) (hnf : ∀ caller, σ.pc ≠ .fork t caller) :
    ph = .unborn := by
  cases ph with
  | unborn => rfl
  | forking => exact absurd h.2.choose_spec (hnf _)
  | running p => exact absurd h.1 hnr
  | reaped => exact h.elim
  | lost => exact absurd hm h.2

theorem InPhase.forking_of_pc {caller : Caller τ} (h : InPhase σ t ph)
    (hp : σ.pc = .fork t caller) (hnr : (σ.task t).status ≠ .running) : ph = .forking := by
  cases ph with
  | unborn => exact absurd hp (h.2.1 caller)
  | forking => rfl
  | running p => exact absurd h.1 hnr
  | reaped => exact h.elim
  | lost => exact absurd (by rw [hp]; exact List.mem_cons_self) h.2

theorem InPhase.running_of_status (h : InPhase σ t ph) (hr : (σ.task t).status = .running) :
    ph = .running (σ.task t).pid := by
  cases ph with
  | unborn => simp [h.1] at hr
  | forking => simp [h.1] at hr
  | running p => rw [h.2]
  | reaped => exact h.elim
  | lost => simp [h.1] at hr

end

variable [DecidableEq τ] {E : Env τ} {σ σ' : State τ} {i : Input}

/-- The events about a task, the first one first. -/
def State.about (σ : State τ) (t : τ) : List (Event τ) :=
  σ.trace.reverse.filter fun e => decide (e.task? = some t)

theorem about_cons {t : τ} {e : Event τ} (h : σ'.trace = e :: σ.trace) :
    σ'.about t = σ.about t ++ if e.task? = some t then [e] else [] := by
  unfold State.about
  rw [h, List.reverse_cons, List.filter_append]
  by_cases he : e.task? = some t <;> simp [he]

theorem about_own {t : τ} {e : Event τ} (h : σ'.trace = e :: σ.trace) (he : e.task? = some t) :
    σ'.about t = σ.about t ++ [e] := by
  rw [about_cons h, if_pos he]

theorem about_other {t : τ} {e : Event τ} (h : σ'.trace = e :: σ.trace) (he : e.task? ≠ some t) :
    σ'.about t = σ.about t := by
  rw [about_cons h, if_neg he, List.append_nil]

theorem about_congr (h : σ'.trace = σ.trace) (t : τ) : σ'.about t = σ.about t := by
  unfold State.about
  rw [h]

/-- No handler faults in the loop. -/
theorem no_fault_inLoop (hr : Reach (next E.cfg) anyInput (init E) σ)
    (hn : next E.cfg σ i = some σ') (hl : σ.pc.inLoop = true) : σ'.pc ≠ .handlerFault := by
  intro hf
  have hpc : σ.pc ≠ .handlerFault := fun hp => by simp [hp, Pc.inLoop] at hl
  obtain ⟨_, -, -, hlive⟩ := fault_step (step_of_next hn) hpc hf
  rw [((ctl_reach hr).running hl).contextLive] at hlive
  cases hlive

/-! ## What does not change -/

/-- The two tasks agree in what the configuration sets. -/
structure Task.SameConf (task task' : Task) : Prop where
  path : task.path = task'.path
  name : task.name = task'.name
  dir : task.dir = task'.dir
  args : task.args = task'.args
  envp : task.envp = task'.envp

theorem Task.SameConf.runnable {task task' : Task} (h : task.SameConf task') :
    task.runnable = task'.runnable := by
  rw [Task.runnable, Task.runnable, h.name, h.path]

theorem sameConf_step (h : ∀ t, (σ.task t).SameConf (E.cfg.task t)) (hp : Progress E.cfg σ σ') :
    ∀ t, (σ'.task t).SameConf (E.cfg.task t) := by
  have hupdate : ∀ {t : τ} {new : Task}, σ'.task = Function.update σ.task t new →
      new.SameConf (σ.task t) → ∀ u, (σ'.task u).SameConf (E.cfg.task u) := by
    intro t new ht hnew u
    rw [ht]
    by_cases hut : u = t
    · subst hut
      rw [Function.update_self]
      obtain ⟨h₁, h₂, h₃, h₄, h₅⟩ := h u
      exact ⟨hnew.path.trans h₁, hnew.name.trans h₂, hnew.dir.trans h₃, hnew.args.trans h₄,
        hnew.envp.trans h₅⟩
    · rw [Function.update_of_ne hut]
      exact h u
  cases hp with
  | stay ht | move _ _ _ ht | mask _ ht | enter _ ht | failed _ ht | forget _ _ _ ht => rwa [ht]
  | start _ ht | forked _ ht | restart _ _ _ ht => exact hupdate ht ⟨rfl, rfl, rfl, rfl, rfl⟩

/-- What the configuration sets in a task is never changed. -/
theorem sameConf_reach (hr : Reach (next E.cfg) anyInput (init E) σ) :
    ∀ t, (σ.task t).SameConf (E.cfg.task t) :=
  hr.invariant (P := fun σ => ∀ t, (σ.task t).SameConf (E.cfg.task t))
    (fun _ => ⟨rfl, rfl, rfl, rfl, rfl⟩)
    fun _ _ _ hr h _ hn => sameConf_step h (progress_of_next hr hn)

/-! ## The life of a task -/

/-- Each task is in the phase that the events about it lead to, and no event is
about a task that is not listed. -/
structure Lives (cfg : Config τ) (σ : State τ) : Prop where
  listed : ∀ t ∈ cfg.tasks, ∃ ph, life (cfg.task t).runnable (σ.about t) = some ph ∧ InPhase σ t ph
  unlisted : ∀ t, t ∉ cfg.tasks → σ.about t = []

/-- A step whose event is about `t` or no task. -/
theorem Lives.off {t : τ} (h : Lives E.cfg σ) (hm : t ∈ E.cfg.tasks)
    (habout : ∀ u ≠ t, σ'.about u = σ.about u) (ht : ∀ u ≠ t, σ'.task u = σ.task u)
    (hf : ∀ u ≠ t, ∀ caller, σ'.pc = .fork u caller ↔ σ.pc = .fork u caller)
    (hs : ∀ u ≠ t, u ∈ σ'.pc.toStart ↔ u ∈ σ.pc.toStart) (hl : σ.pc.inLoop = true)
    (hlife : ∃ ph, life (E.cfg.task t).runnable (σ'.about t) = some ph ∧ InPhase σ' t ph) :
    Lives E.cfg σ' := by
  refine ⟨fun u hu => ?_, fun u hu => ?_⟩
  · by_cases hut : u = t
    · subst hut
      exact hlife
    · obtain ⟨ph, hph, hin⟩ := h.listed u hu
      rw [habout u hut]
      exact ⟨ph, hph, hin.off (ht u hut) (hf u hut) (hs u hut).mp fun _ => ⟨hl, (hs u hut).mpr⟩⟩
  · have hut : u ≠ t := fun heq => hu (heq ▸ hm)
    rw [habout u hut]
    exact h.unlisted u hu

/-- A step without an event about a task. -/
theorem Lives.quiet (h : Lives E.cfg σ) (habout : ∀ u, σ'.about u = σ.about u)
    (ht : σ'.task = σ.task)
    (hf : ∀ u caller, σ'.pc = .fork u caller ↔ σ.pc = .fork u caller)
    (hs : ∀ u, u ∈ σ'.pc.toStart → u ∈ σ.pc.toStart)
    (hl : σ'.pc.inLoop = true → σ.pc.inLoop = true ∧ σ'.pc.toStart = σ.pc.toStart) :
    Lives E.cfg σ' := by
  refine ⟨fun u hu => ?_, fun u hu => by rw [habout u, h.unlisted u hu]⟩
  obtain ⟨ph, hph, hin⟩ := h.listed u hu
  rw [habout u]
  exact ⟨ph, hph, hin.off (by rw [ht]) (hf u) (hs u)
    fun hp => ⟨(hl hp).1, fun hm => by rwa [(hl hp).2]⟩⟩

theorem lives_step (hr : Reach (next E.cfg) anyInput (init E) σ)
    (hn : next E.cfg σ i = some σ') (h : Lives E.cfg σ) : Lives E.cfg σ' := by
  obtain ⟨⟨es, hi⟩, hpc⟩ := indexed_reach hr
  have hrunnable := fun t => (sameConf_reach hr t).runnable
  cases progress_of_next hr hn with
  | stay ht htr hpc' =>
      have hfault := no_fault_inLoop hr hn
      rcases hpc' with hpc' | ⟨hp, hpc'⟩ | hpc'
      · exact h.quiet (about_congr htr) ht (by simp [hpc']) (by simp [hpc']) (by simp [hpc'])
      · exact h.quiet (about_congr htr) ht (by simp [hp, hpc']) (by simp [hpc', Pc.toStart])
          (by simp [hp, hpc', Pc.inLoop, Pc.toStart])
      · -- the process was not in the loop
        refine h.quiet (about_congr htr) ht (fun u caller => iff_of_false (by simp [hpc']) ?_)
          (by simp [hpc', Pc.toStart]) (by simp [hpc', Pc.inLoop])
        intro hp
        exact hfault (by rw [hp]; rfl) hpc'
  | move ha hf hf' ht htr hpc' =>
      refine h.quiet (about_congr htr) ht (fun u caller => iff_of_false (hf' u caller) ?_) ?_ hpc'
      · exact hf u caller
      intro u hu
      cases hl : σ'.pc.inLoop with
      | true => rwa [← (hpc' hl).2]
      | false =>
          rw [toStart_of_not_inLoop hl] at hu
          cases hu
  | mask hp ht htr hpc' =>
      have htr₀ := early_trace hr (by rw [hp]; rfl)
      have habout : ∀ u, σ'.about u = [] := fun u => by simp [State.about, htr, htr₀]
      refine ⟨fun u hu => ⟨.unborn, by rw [habout]; rfl, ?_⟩, fun u _ => habout u⟩
      obtain ⟨ph, hph, hin⟩ := h.listed u hu
      obtain rfl : .unborn = ph := by
        have habout₀ : σ.about u = [] := by simp [State.about, htr₀]
        rw [habout₀] at hph
        exact Option.some.inj hph
      exact ⟨ht ▸ hin.1, by simp [hpc'], fun _ => by rwa [hpc']⟩
  | enter hp ht htr hpc' =>
      refine h.quiet (fun u => ?_) ht (by simp [hp, hpc']) (by simp [hp, hpc', Pc.toStart])
        fun _ => by simp [hp, hpc', Pc.inLoop, Pc.toStart]
      exact about_other htr (by simp [Event.task?])
  | forget hp hc ho ht htr hpc' =>
      refine h.quiet (fun u => ?_) ht (by simp [hp, hpc']) (by simp [hp, hpc'])
        fun _ => by simp [hp, hpc', Pc.inLoop]
      exact about_other htr (by simp [Event.task?])
  | @start t rest hp ht htr hpc' =>
      simp only [PcOk, hp] at hpc
      obtain ⟨hm, hnr⟩ := hpc.2 t List.mem_cons_self
      have hnot := (List.nodup_cons.mp hpc.1).1
      refine h.off hm (fun u hut => ?_) (fun u hut => ?_) (fun u hut => ?_) (fun u hut => ?_)
        (by rw [hp]; rfl) ?_
      · exact about_other htr (by simp [Event.task?, Ne.symm hut])
      · rw [ht, Function.update_of_ne hut]
      · intro caller
        rw [hp, hpc']
        split <;> simp [Ne.symm hut]
      · rw [hp, hpc']
        split <;> simp [Pc.toStart, Caller.rest, hut]
      · obtain ⟨ph, hph, hin⟩ := h.listed t hm
        have hmem : t ∈ σ.pc.toStart := by rw [hp]; exact List.mem_cons_self
        obtain rfl := hin.unborn_of_waiting hmem hnr (by simp [hp])
        refine ⟨if (σ.task t).runnable then .forking else .lost, ?_, ?_⟩
        · rw [about_own htr rfl, life_concat _ hph, hrunnable t]
          rfl
        · rw [hrunnable t] at hpc' ⊢
          split
          · rename_i hrun
            exact ⟨by simp [ht], .startTasks rest, by rw [hpc', if_pos hrun]⟩
          · rename_i hrun
            exact ⟨by simp [ht], by rw [hpc', if_neg hrun]; exact hnot⟩
  | @forked t caller p hp ht htr hpc' =>
      simp only [PcOk, hp] at hpc
      obtain ⟨hm, hnr⟩ := hpc.2 t List.mem_cons_self
      refine h.off hm (fun u hut => ?_) (fun u hut => ?_) (fun u hut => ?_) (fun u hut => ?_)
        (by rw [hp]; rfl) ?_
      · exact about_other htr (by simp [Event.task?, Ne.symm hut])
      · rw [ht, Function.update_of_ne hut]
      · intro caller'
        rw [hp, hpc']
        cases caller <;> simp [Caller.pc, Ne.symm hut]
      · rw [hp, hpc', Caller.toStart_pc]
        simp [Pc.toStart, hut]
      · obtain ⟨ph, hph, hin⟩ := h.listed t hm
        obtain rfl := hin.forking_of_pc hp hnr
        refine ⟨.running p, ?_, by simp [ht], by simp [ht]⟩
        rw [about_own htr rfl, life_concat _ hph]
        rfl
  | @failed t caller hp ht htr hpc' =>
      simp only [PcOk, hp] at hpc
      obtain ⟨hm, hnr⟩ := hpc.2 t List.mem_cons_self
      have hnot := (List.nodup_cons.mp hpc.1).1
      refine h.off hm (fun u hut => ?_) (fun u hut => ?_) (fun u hut => ?_) (fun u hut => ?_)
        (by rw [hp]; rfl) ?_
      · exact about_other htr (by simp [Event.task?, Ne.symm hut])
      · rw [ht]
      · intro caller'
        rw [hp, hpc']
        cases caller <;> simp [Caller.pc, Ne.symm hut]
      · rw [hp, hpc', Caller.toStart_pc]
        simp [Pc.toStart, hut]
      · obtain ⟨ph, hph, hin⟩ := h.listed t hm
        obtain rfl := hin.forking_of_pc hp hnr
        refine ⟨.lost, ?_, by rw [ht]; exact hin.1, by rwa [hpc', Caller.toStart_pc]⟩
        rw [about_own htr rfl, life_concat _ hph]
        rfl
  | @restart c t hp hc ho ht htr hpc' =>
      obtain ⟨hm, hrun, hpid⟩ := hi.kids.owner c hc t ho
      -- two events, with no state in between
      let mid : State τ := { σ with trace := .reap c.pid (some t) :: σ.trace }
      have hmid : mid.trace = .reap c.pid (some t) :: σ.trace := rfl
      have htr : σ'.trace = .taskRun t :: mid.trace := htr
      refine h.off hm (fun u hut => ?_) (fun u hut => ?_) (fun u hut => ?_) (fun u hut => ?_)
        (by rw [hp]; rfl) ?_
      · rw [about_other htr (by simp [Event.task?, Ne.symm hut]),
          about_other hmid (by simp [Event.task?, Ne.symm hut])]
      · rw [ht, Function.update_of_ne hut]
      · intro caller
        rw [hp, hpc']
        split <;> simp [Ne.symm hut]
      · rw [hp, hpc']
        split <;> simp [Pc.toStart, Caller.rest, hut]
      · obtain ⟨ph, hph, hin⟩ := h.listed t hm
        obtain rfl := hin.running_of_status hrun
        have hreaped : life (E.cfg.task t).runnable (mid.about t) = some .reaped := by
          rw [about_own hmid rfl, life_concat _ hph]
          exact if_pos hpid.symm
        refine ⟨if (σ.task t).runnable then .forking else .lost, ?_, ?_⟩
        · rw [about_own htr rfl, life_concat _ hreaped, hrunnable t]
          rfl
        · rw [hrunnable t] at hpc' ⊢
          split
          · rename_i hr'
            exact ⟨by simp [ht], .restartTask, by rw [hpc', if_pos hr']⟩
          · rename_i hr'
            exact ⟨by simp [ht], by rw [hpc', if_neg hr']; exact List.not_mem_nil⟩

theorem lives_reach (hr : Reach (next E.cfg) anyInput (init E) σ) : Lives E.cfg σ :=
  hr.invariant (P := Lives E.cfg)
    ⟨fun t ht => ⟨.unborn, rfl, (E.cfg.fresh t ht).2.2, by simp [init], nofun⟩, fun _ _ => rfl⟩
    fun _ _ _ hr h _ hn => lives_step hr hn h

/-- **The life of a task.** In every state that the supervisor reaches, what has
happened to a listed task is the processes that it had, one after the other: each
but the last was reaped and followed at once by the next `task_run`. The last one
is a child of the supervisor now, under the pid that the task holds, unless
`task_run` is at its `fork` or has returned `ERROR`; after that nothing happens to
the task any more. Nothing ever happens to any other task. -/
theorem task_histories (hr : Reach (next E.cfg) anyInput (init E) σ) :
    (∀ t ∈ E.cfg.tasks, ∃ ph, life (E.cfg.task t).runnable (σ.about t) = some ph ∧ InPhase σ t ph ∧
      ∀ p, ph = .running p → ∃ c ∈ σ.children, c.owner = some t ∧ c.pid = p) ∧
    ∀ t, t ∉ E.cfg.tasks → σ.about t = [] := by
  obtain ⟨⟨es, hi⟩, -⟩ := indexed_reach hr
  refine ⟨fun t ht => ?_, (lives_reach hr).unlisted⟩
  obtain ⟨ph, hph, hin⟩ := (lives_reach hr).listed t ht
  refine ⟨ph, hph, hin, ?_⟩
  rintro p rfl
  obtain ⟨c, hc, ho, hp⟩ := hi.kids.running t ht hin.1
  exact ⟨c, hc, ho, hp.trans hin.2⟩

/-- One process that exits, and a `fork` that fails. -/
theorem task_histories_oneTask : ∃ (σ : State Nat) (ph : Phase),
    σ.about 0 = [.taskRun 0, .fork 0 (some 100), .reap 100 (some 0), .taskRun 0, .fork 0 none] ∧
      life true (σ.about 0) = some ph ∧ InPhase σ 0 ph := by
  have hrun : ((runFrom (next oneTask.cfg) (init oneTask)
      [.sys .ok, .sys .ok, .sys .ok, .sys .ok, .sys .ok, .sys .ok, .sys .ok, .sys (.pid 100),
        .sys .ok, .childExit 100, .deliver .chld, .sys .ok, .sys (.pid 100), .sys .err]).map
          fun σ => decide (σ.about 0 = [.taskRun 0, .fork 0 (some 100), .reap 100 (some 0),
            .taskRun 0, .fork 0 none])) = some true := by
    decide +kernel
  obtain ⟨σ, hσ, hst⟩ := Option.map_eq_some_iff.mp hrun
  obtain ⟨ph, hph, hin, -⟩ := (task_histories (Reach.of_runFrom hσ)).1 0 (by decide)
  exact ⟨σ, ph, of_decide_eq_true hst, hph, hin⟩

/-! ## The order of the calls -/

/-- `task_run` was called on a first part of the listed tasks, and then on the
owners of the reaped processes; nothing was reaped before the listed tasks were
all through. -/
def InOrderRun (cfg : Config τ) (σ : State τ) : Prop :=
  ∃ done rest, cfg.tasks = done ++ rest ∧ σ.ran = done ++ σ.reapedOwners ∧
    (rest ≠ [] → σ.reapedOwners = []) ∧ (σ.pc.inLoop = true → rest = σ.pc.notRun)

omit [DecidableEq τ] in
theorem ran_cons {e : Event τ} (h : σ'.trace = e :: σ.trace) :
    σ'.ran = σ.ran ++ e.ran.toList := by
  unfold State.ran
  rw [h, List.reverse_cons, List.filterMap_append]
  cases e <;> rfl

omit [DecidableEq τ] in
theorem reapedOwners_cons {e : Event τ} (h : σ'.trace = e :: σ.trace) :
    σ'.reapedOwners = σ.reapedOwners ++ e.reaped.toList := by
  unfold State.reapedOwners
  rw [h, List.reverse_cons, List.filterMap_append]
  cases e with
  | reap p owner => cases owner <;> rfl
  | _ => rfl

omit [DecidableEq τ] in
/-- A step that neither runs a task nor reaps a task's process. -/
theorem InOrderRun.quiet (h : InOrderRun E.cfg σ) (hran : σ'.ran = σ.ran)
    (hreaped : σ'.reapedOwners = σ.reapedOwners)
    (hl : σ'.pc.inLoop = true → σ.pc.inLoop = true ∧ σ'.pc.notRun = σ.pc.notRun) :
    InOrderRun E.cfg σ' := by
  obtain ⟨done, rest, htasks, hrun, hnone, hat⟩ := h
  exact ⟨done, rest, htasks, by rw [hran, hreaped, hrun], hreaped ▸ hnone,
    fun hp => by rw [(hl hp).2, hat (hl hp).1]⟩

theorem inOrderRun_step (hr : Reach (next E.cfg) anyInput (init E) σ)
    (hn : next E.cfg σ i = some σ') (h : InOrderRun E.cfg σ) : InOrderRun E.cfg σ' := by
  have hcongr : σ'.trace = σ.trace → σ'.ran = σ.ran ∧ σ'.reapedOwners = σ.reapedOwners := by
    intro htr
    rw [State.ran, State.reapedOwners, htr]
    exact ⟨rfl, rfl⟩
  have hevent : ∀ {e : Event τ}, σ'.trace = e :: σ.trace → e.ran = none → e.reaped = none →
      σ'.ran = σ.ran ∧ σ'.reapedOwners = σ.reapedOwners := by
    intro e htr hran hreaped
    rw [ran_cons htr, reapedOwners_cons htr, hran, hreaped]
    simp
  cases progress_of_next hr hn with
  | stay ht htr hpc' =>
      obtain ⟨hran, hreaped⟩ := hcongr htr
      refine h.quiet hran hreaped fun hl => ?_
      rcases hpc' with hpc' | ⟨hp, hpc'⟩ | hpc'
      · exact ⟨hpc' ▸ hl, by rw [hpc']⟩
      · exact ⟨by rw [hp]; rfl, by rw [hp, hpc']; rfl⟩
      · rw [hpc'] at hl
        cases hl
  | move ha hf hf' ht htr hpc' =>
      obtain ⟨hran, hreaped⟩ := hcongr htr
      refine h.quiet hran hreaped fun hl => ⟨(hpc' hl).1, ?_⟩
      have hstart : ∀ {pc : Pc τ}, (∀ t caller, pc ≠ .fork t caller) → pc.notRun = pc.toStart := by
        intro pc hpc
        cases pc with
        | fork t caller => exact absurd rfl (hpc t caller)
        | _ => rfl
      rw [hstart hf, hstart hf', (hpc' hl).2]
  | mask hp ht htr hpc' =>
      have htr₀ := early_trace hr (by rw [hp]; rfl)
      refine ⟨[], E.cfg.tasks, rfl, ?_, fun _ => ?_, fun _ => by rw [hpc']; rfl⟩
      · simp [State.ran, State.reapedOwners, htr, htr₀]
      · simp [State.reapedOwners, htr, htr₀]
  | enter hp ht htr hpc' =>
      obtain ⟨hran, hreaped⟩ := hevent htr rfl rfl
      exact h.quiet hran hreaped fun _ => ⟨by rw [hp]; rfl, by rw [hp, hpc']; rfl⟩
  | forget hp hc ho ht htr hpc' =>
      obtain ⟨hran, hreaped⟩ := hevent htr rfl rfl
      exact h.quiet hran hreaped fun _ => ⟨by rw [hp]; rfl, by rw [hp, hpc']⟩
  | @forked t caller p hp ht htr hpc' =>
      obtain ⟨hran, hreaped⟩ := hevent htr rfl rfl
      refine h.quiet hran hreaped fun _ => ⟨by rw [hp]; rfl, ?_⟩
      rw [hp, hpc']
      cases caller <;> rfl
  | @failed t caller hp ht htr hpc' =>
      obtain ⟨hran, hreaped⟩ := hevent htr rfl rfl
      refine h.quiet hran hreaped fun _ => ⟨by rw [hp]; rfl, ?_⟩
      rw [hp, hpc']
      cases caller <;> rfl
  | @start t rest hp ht htr hpc' =>
      obtain ⟨done, left, htasks, hrun, hnone, hat⟩ := h
      obtain rfl : left = t :: rest := by rw [hat (by rw [hp]; rfl), hp]; rfl
      have hreaped : σ'.reapedOwners = [] := by
        rw [reapedOwners_cons htr, hnone (List.cons_ne_nil t rest)]
        rfl
      refine ⟨done ++ [t], rest, by rw [htasks, List.append_assoc]; rfl, ?_, fun _ => hreaped,
        fun _ => ?_⟩
      · rw [ran_cons htr, hrun, hreaped, hnone (List.cons_ne_nil t rest)]
        simp [Event.ran]
      · rw [hpc']
        split <;> rfl
  | @restart c t hp hc ho ht htr hpc' =>
      obtain ⟨done, left, htasks, hrun, hnone, hat⟩ := h
      obtain rfl : left = [] := by rw [hat (by rw [hp]; rfl), hp]; rfl
      let mid : State τ := { σ with trace := .reap c.pid (some t) :: σ.trace }
      have hmid : mid.trace = .reap c.pid (some t) :: σ.trace := rfl
      have htr : σ'.trace = .taskRun t :: mid.trace := htr
      refine ⟨done, [], htasks, ?_, fun hne => absurd rfl hne, fun _ => ?_⟩
      · rw [ran_cons htr, ran_cons hmid, reapedOwners_cons htr, reapedOwners_cons hmid, hrun]
        simp [Event.ran, Event.reaped]
      · rw [hpc']
        split <;> rfl

/-- **The order of the calls.** In every run, `task_run` is called on the tasks in
the order of the list, each once, and only when they are through on the owners of
the processes that are reaped, one call for each, in the order in which they are
reaped. -/
theorem run_order (hr : Reach (next E.cfg) anyInput (init E) σ) :
    ∃ done rest, E.cfg.tasks = done ++ rest ∧ σ.ran = done ++ σ.reapedOwners ∧
      (rest ≠ [] → σ.reapedOwners = []) ∧ (σ.pc.inLoop = true → rest = σ.pc.notRun) :=
  hr.invariant (P := InOrderRun E.cfg) ⟨[], E.cfg.tasks, rfl, rfl, fun _ => rfl, nofun⟩
    fun _ _ _ hr h _ hn => inOrderRun_step hr hn h

/-- Two tasks like the one of `oneTask`. -/
def twoTasks : Env Nat :=
  { oneTask with
    cfg :=
      { oneTask.cfg with
        tasks := [0, 1]
        nodup := by decide
        fresh := fun _ _ => ⟨rfl, rfl, rfl⟩ } }

/-- The second one's process exits, then the first one's, then the second one's
again. -/
theorem run_order_two : ∃ σ : State Nat, σ.pc = .waitpid ∧ σ.reapedOwners = [1, 0, 1] ∧
    ∃ done rest, twoTasks.cfg.tasks = done ++ rest ∧ σ.ran = done ++ σ.reapedOwners ∧
      (rest ≠ [] → σ.reapedOwners = []) ∧ (σ.pc.inLoop = true → rest = σ.pc.notRun) := by
  have hrun : ((runFrom (next twoTasks.cfg) (init twoTasks)
      [.sys .ok, .sys .ok, .sys .ok, .sys .ok, .sys .ok, .sys .ok, .sys .ok, .sys (.pid 100),
        .sys .ok, .sys (.pid 101), .sys .ok, .childExit 101, .deliver .chld, .childExit 100,
        .sys .ok, .sys (.pid 101), .sys (.pid 102), .childExit 102, .sys (.pid 100),
        .sys (.pid 103), .sys (.pid 102), .sys (.pid 104)]).map fun σ =>
          decide (σ.pc = .waitpid) && decide (σ.reapedOwners = [1, 0, 1])) = some true := by
    decide +kernel
  obtain ⟨σ, hσ, hst⟩ := Option.map_eq_some_iff.mp hrun
  simp only [Bool.and_eq_true, decide_eq_true_eq] at hst
  exact ⟨σ, hst.1, hst.2, run_order (Reach.of_runFrom hσ)⟩

end Bitzer
