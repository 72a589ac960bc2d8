import Mathlib.Data.List.Nodup
import Mathlib.Data.List.Perm.Subperm
import Bitzer.Context.Control
import Bitzer.Context.Lookup
import Bitzer.Rbtree.Run

/-!
# The supervisor's index

The state of a task is stored three times: in the task, in the tree and in the
kernel's table of children. `Indexed` says how the three agree, in every state
and with whatever the kernel answers: a running task has an unreaped child of
its own and one node in the tree under that child's pid; any other task has
neither. The tree operations of the loops are therefore called on linked and
unlinked nodes only as they require (`treeFault` is not reached).
-/

namespace Bitzer

open Lib

variable {τ : Type}

/-- The running tasks are those that own an unreaped child, the one whose pid
they hold. -/
structure Kids (cfg : Config τ) (task : τ → Task) (children : List (Child τ)) : Prop where
  nodup : (children.map Child.pid).Nodup
  pos : ∀ c ∈ children, 0 < c.pid
  owner : ∀ c ∈ children, ∀ t, c.owner = some t →
    t ∈ cfg.tasks ∧ (task t).status = .running ∧ (task t).pid = c.pid
  running : ∀ t ∈ cfg.tasks, (task t).status = .running →
    ∃ c ∈ children, c.owner = some t ∧ c.pid = (task t).pid

/-- The entries are the running tasks under their pids. -/
def Entries (cfg : Config τ) (task : τ → Task) (es : List (NodeAddr τ × UInt64)) : Prop :=
  ∀ e, e ∈ es ↔ ∃ t ∈ cfg.tasks, (task t).status = .running ∧
    e = (.task t, pidKey (task t).pid)

structure Indexed (cfg : Config τ) (σ : State τ) (es : List (NodeAddr τ × UInt64)) : Prop where
  holds : σ.ctx.isSome = true → Holds σ.mem .sentinel es
  alloc : ∀ a, (σ.mem.node a).isSome = true
  entries : Entries cfg σ.task es
  kids : Kids cfg σ.task σ.children
  idle : ∀ t ∈ cfg.tasks, (σ.task t).status ≠ .running → (σ.task t).pid = 0

/-- Tasks that are still to be started. -/
def Waiting (cfg : Config τ) (task : τ → Task) (ts : List τ) : Prop :=
  ts.Nodup ∧ ∀ t ∈ ts, t ∈ cfg.tasks ∧ (task t).status ≠ .running

/-- The tasks that the caller of `task_run` goes on with. -/
def Caller.rest : Caller τ → List τ
  | .startTasks rest => rest
  | .restartTask => []

/-- The tasks that are not running at each place. -/
def PcOk (cfg : Config τ) (σ : State τ) : Prop :=
  match σ.pc with
  | .initInstance => Waiting cfg σ.task cfg.tasks
  | .contextCreate => Waiting cfg σ.task cfg.tasks
  | .contextInit => Waiting cfg σ.task cfg.tasks
  | .assignContext => Waiting cfg σ.task cfg.tasks
  | .setCallback => Waiting cfg σ.task cfg.tasks
  | .sigmask => Waiting cfg σ.task cfg.tasks
  | .startTasks rest => Waiting cfg σ.task rest
  | .fork t caller => Waiting cfg σ.task (t :: caller.rest)
  | .treeFault => False
  | _ => True

section
variable {cfg : Config τ} {task : τ → Task} {cs : List (Child τ)} {c : Child τ} {t : τ}
  {σ σ' : State τ} {es : List (NodeAddr τ × UInt64)} {ts : List τ} {p : Int32}

theorem Kids.eq_of_pid {d : Child τ} (h : Kids cfg task cs) (hc : c ∈ cs) (hd : d ∈ cs)
    (hp : c.pid = d.pid) : c = d :=
  List.inj_on_of_nodup_map h.nodup hc hd hp

theorem Kids.adopt (h : Kids cfg task cs) (hp : 0 < p) (hfresh : ∀ c ∈ cs, c.pid ≠ p) :
    Kids cfg task (⟨p, none, false⟩ :: cs) := by
  refine ⟨?_, ?_, ?_, fun t ht hr => ?_⟩
  · rw [List.map_cons, List.nodup_cons]
    refine ⟨fun hmem => ?_, h.nodup⟩
    obtain ⟨c, hc, hcp⟩ := List.mem_map.mp hmem
    exact hfresh c hc hcp
  · rintro c hc
    rcases List.mem_cons.mp hc with rfl | hc
    · exact hp
    · exact h.pos c hc
  · rintro c hc t ht
    rcases List.mem_cons.mp hc with rfl | hc
    · cases ht
    · exact h.owner c hc t ht
  · obtain ⟨c, hc, hco⟩ := h.running t ht hr
    exact ⟨c, List.mem_cons_of_mem _ hc, hco⟩

/-- An exit changes neither a pid nor an owner. -/
theorem Kids.exit (h : Kids cfg task cs) (p : Int32) :
    Kids cfg task (cs.map fun d => if d.pid = p then { d with exited := true } else d) := by
  have hpid : ∀ d : Child τ, (if d.pid = p then { d with exited := true } else d).pid = d.pid :=
    fun d => by split <;> rfl
  have howner : ∀ d : Child τ,
      (if d.pid = p then { d with exited := true } else d).owner = d.owner :=
    fun d => by split <;> rfl
  refine ⟨?_, ?_, ?_, fun t ht hr => ?_⟩
  · simpa [List.map_map, Function.comp_def, hpid] using h.nodup
  · rintro _ hc
    obtain ⟨d, hd, rfl⟩ := List.mem_map.mp hc
    rw [hpid]
    exact h.pos d hd
  · rintro _ hc t ht
    obtain ⟨d, hd, rfl⟩ := List.mem_map.mp hc
    rw [howner] at ht
    rw [hpid]
    exact h.owner d hd t ht
  · obtain ⟨d, hd, hdo, hdp⟩ := h.running t ht hr
    exact ⟨_, List.mem_map_of_mem hd, by rw [howner, hdo], by rw [hpid, hdp]⟩

theorem Waiting.tail (h : Waiting cfg task (t :: ts)) : Waiting cfg task ts :=
  ⟨(List.nodup_cons.mp h.1).2, fun u hu => h.2 u (List.mem_cons_of_mem _ hu)⟩

theorem Indexed.congr (h : Indexed cfg σ es) (hctx : σ'.ctx.isSome = true → σ.ctx.isSome = true)
    (hm : σ'.mem = σ.mem) (ht : σ'.task = σ.task) (hc : σ'.children = σ.children) :
    Indexed cfg σ' es :=
  ⟨fun hs => hm ▸ h.holds (hctx hs), hm ▸ h.alloc, ht ▸ h.entries, ht ▸ hc ▸ h.kids, ht ▸ h.idle⟩

theorem PcOk.congr (h : PcOk cfg σ) (hpc : σ'.pc = σ.pc) (ht : σ'.task = σ.task) :
    PcOk cfg σ' := by
  unfold PcOk at h ⊢
  rw [hpc, ht]
  exact h

theorem PcOk.caller {caller : Caller τ} (h : Waiting cfg σ.task caller.rest)
    (hpc : σ.pc = caller.pc) : PcOk cfg σ := by
  cases caller with
  | startTasks rest =>
      unfold PcOk
      rw [hpc]
      exact h
  | restartTask =>
      unfold PcOk
      rw [hpc]
      trivial

theorem Entries.mem_fst (h : Entries cfg task es) :
    .task t ∈ es.map Prod.fst ↔ t ∈ cfg.tasks ∧ (task t).status = .running := by
  constructor
  · intro ht
    obtain ⟨e, he, het⟩ := List.mem_map.mp ht
    obtain ⟨u, hu, hr, rfl⟩ := (h e).mp he
    cases het
    exact ⟨hu, hr⟩
  · rintro ⟨ht, hr⟩
    exact List.mem_map.mpr ⟨_, (h _).mpr ⟨t, ht, hr, rfl⟩, rfl⟩

/-- The tree has at most one node for each listed task. -/
theorem Entries.length_le {m : Mem (NodeAddr τ)} (h : Entries cfg task es)
    (hh : Holds m .sentinel es) : es.length ≤ cfg.tasks.length := by
  have hn : (es.map Prod.fst).Nodup := (List.nodup_cons.mp hh.nodup).2
  have hsub : es.map Prod.fst ⊆ cfg.tasks.map .task := fun a ha => by
    obtain ⟨e, he, rfl⟩ := List.mem_map.mp ha
    obtain ⟨t, ht, -, rfl⟩ := (h e).mp he
    exact List.mem_map_of_mem ht
  simpa using (hn.subperm hsub).length_le

theorem Entries.length_lt_fuel {m : Mem (NodeAddr τ)} (h : Entries cfg task es)
    (hh : Holds m .sentinel es) : 2 * es.length + 1 < cfg.fuel := by
  have := h.length_le hh
  unfold Config.fuel
  omega

/-- Two running tasks have different pids. -/
theorem Indexed.key_inj (h : Indexed cfg σ es) {d e : NodeAddr τ × UInt64} (hd : d ∈ es)
    (he : e ∈ es) (hk : d.2 = e.2) : d = e := by
  obtain ⟨t, ht, htr, rfl⟩ := (h.entries d).mp hd
  obtain ⟨u, hu, hur, rfl⟩ := (h.entries e).mp he
  obtain ⟨c, hc, hco, hcp⟩ := h.kids.running t ht htr
  obtain ⟨c', hc', hco', hcp'⟩ := h.kids.running u hu hur
  obtain rfl := h.kids.eq_of_pid hc hc' (by rw [hcp, hcp', pidKey_inj.mp hk])
  rw [hco] at hco'
  cases hco'
  rfl

theorem pcOk_goto {a : Answer} {pc : Pc τ} (h : PcOk cfg σ) (hg : Goto σ a pc) :
    PcOk cfg { σ with pc := pc } := by
  cases hg with
  | pidfile hpc =>
      simp only [PcOk, hpc] at h ⊢
      exact h
  | callback _ _ =>
      unfold callbackPc
      split
      · split
        · trivial
        · split <;> trivial
      · trivial
  | pidfileFailed | createFailed | initFailed | maskFailed | started | unexpected | noChild
  | drained | childless | exit => trivial

theorem indexed_init (E : Env τ) :
    (∃ es, Indexed E.cfg (init E) es) ∧ PcOk E.cfg (init E) := by
  have hidle : ∀ t ∈ E.cfg.tasks, (E.cfg.task t).status ≠ .running := fun t ht => by
    rw [(E.cfg.fresh t ht).2.2]
    simp
  have hentries : Entries E.cfg E.cfg.task [] := fun e => by
    constructor
    · intro he
      cases he
    · rintro ⟨t, ht, hr, -⟩
      exact absurd hr (hidle t ht)
  have hkids : Kids E.cfg E.cfg.task E.children := by
    refine ⟨E.pid_nodup, E.pid_pos, fun c hc t ho => ?_, fun t ht hr => ?_⟩
    · rw [E.foreign c hc] at ho
      cases ho
    · exact absurd hr (hidle t ht)
  exact ⟨⟨[], fun h => (by cases h), fun _ => rfl, hentries, hkids,
    fun t ht _ => (E.cfg.fresh t ht).1⟩, E.cfg.nodup, fun t ht => ⟨ht, hidle t ht⟩⟩

variable [DecidableEq τ]

/-- A child that no task owns is reaped. -/
theorem Kids.erase_foreign (h : Kids cfg task cs) (hc : c.owner = none) :
    Kids cfg task (cs.erase c) := by
  have hsub := List.erase_sublist (a := c) (l := cs)
  refine ⟨h.nodup.sublist (hsub.map _), fun d hd => h.pos d (hsub.mem hd),
    fun d hd => h.owner d (hsub.mem hd), fun t ht hr => ?_⟩
  obtain ⟨d, hd, hdo, hdp⟩ := h.running t ht hr
  refine ⟨d, (List.mem_erase_of_ne ?_).mpr hd, hdo, hdp⟩
  rintro rfl
  rw [hc] at hdo
  cases hdo

/-- A task's child is reaped, and the task reset. -/
theorem Kids.erase (h : Kids cfg task cs) (hc : c ∈ cs) (ho : c.owner = some t) :
    Kids cfg (Function.update task t (taskReset (task t))) (cs.erase c) := by
  have hsub := List.erase_sublist (a := c) (l := cs)
  obtain ⟨-, -, hpid⟩ := h.owner c hc t ho
  have hn : (cs.erase c).Nodup := (h.nodup.of_map _).sublist hsub
  refine ⟨h.nodup.sublist (hsub.map _), fun d hd => h.pos d (hsub.mem hd),
    fun d hd u hu => ?_, fun u hu hr => ?_⟩
  · obtain ⟨hmem, hrun, hup⟩ := h.owner d (hsub.mem hd) u hu
    have hut : u ≠ t := by
      rintro rfl
      have hdc := h.eq_of_pid (hsub.mem hd) hc (by rw [← hup, hpid])
      rw [hdc] at hd
      exact (h.nodup.of_map _).not_mem_erase hd
    rw [Function.update_of_ne hut]
    exact ⟨hmem, hrun, hup⟩
  · have hut : u ≠ t := by
      rintro rfl
      simp at hr
    rw [Function.update_of_ne hut] at hr ⊢
    obtain ⟨d, hd, hdo, hdp⟩ := h.running u hu hr
    refine ⟨d, (List.mem_erase_of_ne ?_).mpr hd, hdo, hdp⟩
    rintro rfl
    rw [ho] at hdo
    exact hut (Option.some.inj hdo).symm

/-- A task that is not running may be reset. -/
theorem Kids.reset (h : Kids cfg task cs) (ht : (task t).status ≠ .running) :
    Kids cfg (Function.update task t (taskReset (task t))) cs := by
  refine ⟨h.nodup, h.pos, fun d hd u hu => ?_, fun u hu hr => ?_⟩
  · obtain ⟨hmem, hrun, hup⟩ := h.owner d hd u hu
    have hut : u ≠ t := by
      rintro rfl
      exact ht hrun
    rw [Function.update_of_ne hut]
    exact ⟨hmem, hrun, hup⟩
  · have hut : u ≠ t := by
      rintro rfl
      simp at hr
    rw [Function.update_of_ne hut] at hr ⊢
    exact h.running u hu hr

/-- A task that is not running is started. -/
theorem Kids.fork (h : Kids cfg task cs) (hmem : t ∈ cfg.tasks) (ht : (task t).status ≠ .running)
    (hp : 0 < p) (hfresh : ∀ c ∈ cs, c.pid ≠ p) :
    Kids cfg (Function.update task t (taskStarted p (task t))) (⟨p, some t, false⟩ :: cs) := by
  refine ⟨?_, ?_, fun d hd u hu => ?_, fun u hu hr => ?_⟩
  · exact (h.adopt hp hfresh).nodup
  · rintro d hd
    rcases List.mem_cons.mp hd with rfl | hd
    · exact hp
    · exact h.pos d hd
  · rcases List.mem_cons.mp hd with rfl | hd
    · cases hu
      simp [hmem]
    · obtain ⟨hm, hrun, hup⟩ := h.owner d hd u hu
      have hut : u ≠ t := by
        rintro rfl
        exact ht hrun
      rw [Function.update_of_ne hut]
      exact ⟨hm, hrun, hup⟩
  · by_cases hut : u = t
    · subst hut
      exact ⟨_, List.mem_cons_self, rfl, by simp⟩
    · rw [Function.update_of_ne hut] at hr ⊢
      obtain ⟨d, hd, hdo⟩ := h.running u hu hr
      exact ⟨d, List.mem_cons_of_mem _ hd, hdo⟩

/-! ## The entries -/

/-- Resetting a task that is not running leaves the entries alone. -/
theorem Entries.reset (h : Entries cfg task es) (ht : (task t).status ≠ .running) :
    Entries cfg (Function.update task t (taskReset (task t))) es := by
  intro e
  rw [h e]
  refine exists_congr fun u => and_congr_right fun _ => ?_
  by_cases hut : u = t
  · subst hut
    simp [ht]
  · rw [Function.update_of_ne hut]

theorem Entries.delete (h : Entries cfg task es) :
    Entries cfg (Function.update task t (taskReset (task t))) (deleteEntry (.task t) es) := by
  intro e
  rw [mem_deleteEntry, h e]
  constructor
  · rintro ⟨⟨u, hu, hr, rfl⟩, hne⟩
    have hut : u ≠ t := fun hut => hne (by rw [hut])
    exact ⟨u, hu, by rwa [Function.update_of_ne hut], by rw [Function.update_of_ne hut]⟩
  · rintro ⟨u, hu, hr, rfl⟩
    have hut : u ≠ t := by
      rintro rfl
      simp at hr
    rw [Function.update_of_ne hut] at hr ⊢
    exact ⟨⟨u, hu, hr, rfl⟩, by simpa using hut⟩

theorem Entries.insert (h : Entries cfg task es) (hmem : t ∈ cfg.tasks)
    (ht : (task t).status ≠ .running) :
    Entries cfg (Function.update task t (taskStarted p (task t)))
      (insertEntry (.task t) (pidKey p) es) := by
  intro e
  rw [mem_insertEntry, h e]
  constructor
  · rintro (rfl | ⟨u, hu, hr, rfl⟩)
    · exact ⟨t, hmem, by simp, by simp⟩
    · have hut : u ≠ t := by
        rintro rfl
        exact ht hr
      exact ⟨u, hu, by rwa [Function.update_of_ne hut], by rw [Function.update_of_ne hut]⟩
  · rintro ⟨u, hu, hr, rfl⟩
    by_cases hut : u = t
    · subst hut
      exact Or.inl (by simp)
    · rw [Function.update_of_ne hut] at hr ⊢
      exact Or.inr ⟨u, hu, hr, rfl⟩

theorem Waiting.reset (h : Waiting cfg task ts) :
    Waiting cfg (Function.update task t (taskReset (task t))) ts := by
  refine ⟨h.1, fun u hu => ⟨(h.2 u hu).1, ?_⟩⟩
  by_cases hut : u = t
  · subst hut
    simp
  · rw [Function.update_of_ne hut]
    exact (h.2 u hu).2

/-- Starting one waiting task does not concern the others. -/
theorem Waiting.update (h : Waiting cfg task (t :: ts)) (new : Task) :
    Waiting cfg (Function.update task t new) ts := by
  refine ⟨h.tail.1, fun u hu => ⟨(h.tail.2 u hu).1, ?_⟩⟩
  have hut : u ≠ t := by
    rintro rfl
    exact (List.nodup_cons.mp h.1).1 hu
  rw [Function.update_of_ne hut]
  exact (h.tail.2 u hu).2

/-! ## The functions of the loops -/

/-- `task_run` up to its `fork`, on a task that is not running. -/
theorem taskRun_indexed {caller : Caller τ} (h : Indexed cfg σ es)
    (hw : Waiting cfg σ.task (t :: caller.rest)) :
    Indexed cfg (taskRun caller t σ) es ∧ PcOk cfg (taskRun caller t σ) := by
  obtain ⟨ht, hr⟩ := hw.2 t List.mem_cons_self
  refine ⟨⟨h.holds, h.alloc, h.entries.reset hr, h.kids.reset hr, fun u hu hur => ?_⟩, ?_⟩
  · show (Function.update σ.task t _ u).pid = 0
    by_cases hut : u = t
    · subst hut
      simp
    · have hur : (Function.update σ.task t (taskReset (σ.task t)) u).status ≠ .running := hur
      rw [Function.update_of_ne hut] at hur ⊢
      exact h.idle u hu hur
  · rcases pc_taskRun caller t σ with hpc | hpc
    · unfold PcOk
      rw [hpc]
      exact hw.reset
    · exact PcOk.caller hw.tail.reset hpc

/-- `task_run` from its `fork` on: the node is not linked, and the tree gets
it. -/
theorem taskRunForked_indexed {caller : Caller τ} (h : Indexed cfg σ es)
    (hctx : σ.ctx.isSome = true) (hw : Waiting cfg σ.task (t :: caller.rest)) (hp : 0 < p)
    (hfresh : ∀ c ∈ σ.children, c.pid ≠ p) :
    Indexed cfg (taskRunForked cfg caller t p σ) (insertEntry (.task t) (pidKey p) es) ∧
      PcOk cfg (taskRunForked cfg caller t p σ) := by
  obtain ⟨ht, hr⟩ := hw.2 t List.mem_cons_self
  have hh := h.holds hctx
  have hop : (Op.insert (.task t) (pidKey p)).Enabled .sentinel σ.mem es :=
    ⟨by simp, fun hmem => hr (h.entries.mem_fst.mp hmem).2, h.alloc _⟩
  obtain ⟨_, m', hrun, hh', halloc⟩ := Op.run_spec hh hop (h.entries.length_lt_fuel hh)
  have heq : taskRunForked cfg caller t p σ = { σ with
      mem := m'
      task := Function.update σ.task t (taskStarted p (σ.task t))
      children := ⟨p, some t, false⟩ :: σ.children
      trace := .fork t (some p) :: σ.trace
      pc := caller.pc } := by
    unfold taskRunForked
    simp only [show (do setKey (.ref (.task t)) (pidKey p); rbtreeInsert cfg.fuel (.ref (.task t)) :
      Prog (Mem (NodeAddr τ)) Unit).run σ.mem = some (_, m') from hrun]
  rw [heq]
  refine ⟨⟨fun _ => hh', fun a => ?_, h.entries.insert ht hr, h.kids.fork ht hr hp hfresh,
    fun u hu hur => ?_⟩, PcOk.caller (hw.update _) rfl⟩
  · cases a with
    | sentinel => exact hh'.sentinel
    | task u => exact halloc _ (by simp) (h.alloc _)
  · by_cases hut : u = t
    · subst hut
      simp at hur
    · have hur : (Function.update σ.task t (taskStarted p (σ.task t)) u).status ≠ .running := hur
      show (Function.update σ.task t _ u).pid = 0
      rw [Function.update_of_ne hut] at hur ⊢
      exact h.idle u hu hur

/-- The restart of a task whose child was reaped: the node is linked, and leaves
the tree. -/
theorem contextRestartTask_indexed (hh : Holds σ.mem .sentinel es)
    (halloc : ∀ a, (σ.mem.node a).isSome = true) (he : Entries cfg σ.task es)
    (hk : Kids cfg (Function.update σ.task t (taskReset (σ.task t))) σ.children)
    (hidle : ∀ u ∈ cfg.tasks, (σ.task u).status ≠ .running → (σ.task u).pid = 0)
    (ht : t ∈ cfg.tasks) (hr : (σ.task t).status = .running) :
    Indexed cfg (contextRestartTask cfg t σ) (deleteEntry (.task t) es) ∧
      PcOk cfg (contextRestartTask cfg t σ) := by
  have hop : (Op.delete (.task t)).Enabled .sentinel σ.mem es := he.mem_fst.mpr ⟨ht, hr⟩
  obtain ⟨_, m', hrun, hh', halloc'⟩ := Op.run_spec hh hop (he.length_lt_fuel hh)
  have heq : contextRestartTask cfg t σ = taskRun .restartTask t { σ with mem := m' } := by
    unfold contextRestartTask
    simp only [show (rbtreeDelete cfg.fuel (.ref (.task t))).run σ.mem = some (_, m') from hrun]
  rw [heq]
  refine ⟨⟨fun _ => hh', fun a => ?_, he.delete, hk, fun u hu hur => ?_⟩, ?_⟩
  · cases a with
    | sentinel => exact hh'.sentinel
    | task u => exact halloc' _ (by simp) (halloc _)
  · show (Function.update σ.task t _ u).pid = 0
    by_cases hut : u = t
    · subst hut
      simp
    · have hur : (Function.update σ.task t (taskReset (σ.task t)) u).status ≠ .running := hur
      rw [Function.update_of_ne hut] at hur ⊢
      exact hidle u hu hur
  · have hw : Waiting cfg (Function.update σ.task t (taskReset (σ.task t))) [t] :=
      ⟨by simp, by simp [ht]⟩
    rcases pc_taskRun .restartTask t { σ with mem := m' } with hpc | hpc
    · unfold PcOk
      rw [hpc]
      exact hw
    · have hw' : Waiting cfg (Function.update σ.task t (taskReset (σ.task t)))
          (Caller.rest .restartTask) := hw.tail
      exact PcOk.caller hw' hpc

/-- What the lookup of a reaped child finds: the task that owns it. -/
theorem Indexed.find_child (h : Indexed cfg σ es) (hctx : σ.ctx.isSome = true)
    (hc : c ∈ σ.children) : σ.find cfg c.pid = some c.owner := by
  have hh := h.holds hctx
  have hlt := h.entries.length_lt_fuel hh
  obtain ⟨r, hrun, hsome, hnone⟩ := hh.find (show es.length < cfg.fuel by omega) (pidKey c.pid)
  have hr : r = c.owner := by
    cases r with
    | none =>
        cases ho : c.owner with
        | none => rfl
        | some t =>
            obtain ⟨ht, hrun', hpid⟩ := h.kids.owner c hc t ho
            exact absurd (by rw [hpid]) (hnone rfl _ ((h.entries _).mpr ⟨t, ht, hrun', rfl⟩))
    | some t =>
        obtain ⟨u, hu, hur, heq⟩ := (h.entries _).mp (hsome t rfl)
        obtain ⟨htu, hkey⟩ := Prod.mk.inj heq
        cases htu
        obtain ⟨d, hd, hdo, hdp⟩ := h.kids.running t hu hur
        rw [h.kids.eq_of_pid hc hd (by rw [hdp, pidKey_inj.mp hkey]), hdo]
  simp only [State.find, hrun, Option.map_some, hr]

/-- A reaped child: its owner is restarted, another child is forgotten. -/
theorem Indexed.reaped_eq (h : Indexed cfg σ es) (hctx : σ.ctx.isSome = true)
    (hc : c ∈ σ.children) : reaped cfg c σ = match c.owner with
      | none => { σ with
          children := σ.children.erase c
          trace := .reap c.pid c.owner :: σ.trace }
      | some t => contextRestartTask cfg t { σ with
          children := σ.children.erase c
          trace := .reap c.pid c.owner :: σ.trace } := by
  -- the lookup reads the tree only
  have hfind : State.find cfg { σ with
      children := σ.children.erase c
      trace := .reap c.pid c.owner :: σ.trace } c.pid = some c.owner := h.find_child hctx hc
  unfold reaped
  dsimp only
  rw [hfind]
  cases c.owner with
  | none => rfl
  | some t => rfl

theorem reaped_indexed (h : Indexed cfg σ es) (hctx : σ.ctx.isSome = true)
    (hc : c ∈ σ.children) (hpc : σ.pc = .waitpid) :
    (∃ es', Indexed cfg (reaped cfg c σ) es') ∧ PcOk cfg (reaped cfg c σ) := by
  rw [h.reaped_eq hctx hc]
  cases ho : c.owner with
  | none =>
      refine ⟨⟨es, h.holds, h.alloc, h.entries, h.kids.erase_foreign ho, h.idle⟩, ?_⟩
      simp [PcOk, hpc]
  | some t =>
      obtain ⟨ht, hr, -⟩ := h.kids.owner c hc t ho
      obtain ⟨hi, hpc'⟩ := contextRestartTask_indexed
        (σ := { σ with children := σ.children.erase c, trace := .reap c.pid (some t) :: σ.trace })
        (h.holds hctx) h.alloc h.entries (h.kids.erase hc ho) h.idle ht hr
      exact ⟨⟨_, hi⟩, hpc'⟩

/-! ## Every step -/

theorem indexed_step {E : Env τ} {i : Input} (hctl : Ctl E σ)
    (h : ∃ es, Indexed E.cfg σ es) (hpc : PcOk E.cfg σ) (hstep : Step E.cfg σ i σ') :
    (∃ es, Indexed E.cfg σ' es) ∧ PcOk E.cfg σ' := by
  obtain ⟨es, h⟩ := h
  have hctx : σ.pc.inLoop = true → σ.ctx.isSome = true := fun hl => by
    obtain ⟨ctx, hctx, -⟩ := (hctl.running hl).ctx
    simp [hctx]
  cases hstep with
  | goto hg => exact ⟨⟨es, h.congr id rfl rfl rfl⟩, pcOk_goto hpc hg⟩
  | create hp =>
      simp only [PcOk, hp] at hpc
      obtain ⟨n, hn⟩ := Option.isSome_iff_exists.mp (h.alloc .sentinel)
      obtain ⟨_, m', hrun, hh, ho⟩ := Holds.init hn
      have heq : contextCreate σ = { σ with
          mem := m', ctx := some ⟨none, false, fun _ => false⟩, pc := .contextInit } := by
        unfold contextCreate
        simp only [show (rbtreeInit (.ref .sentinel)).run σ.mem = some (_, m') from hrun]
      rw [heq]
      refine ⟨⟨[], fun _ => hh, fun a => ?_, fun e => ?_, h.kids, h.idle⟩, hpc⟩
      · by_cases ha : a = .sentinel
        · subst ha
          exact hh.sentinel
        · show (m'.node a).isSome = true
          rw [ho a (by simpa using ha)]
          exact h.alloc a
      · -- no task is running yet
        constructor
        · intro he
          cases he
        · rintro ⟨t, ht, hr, -⟩
          exact absurd hr (hpc.2 t ht).2
  | load hp hc =>
      simp only [PcOk, hp] at hpc
      exact ⟨⟨es, h.congr (by simp [hc]) rfl rfl rfl⟩, hpc⟩
  | assign hp =>
      simp only [PcOk, hp] at hpc
      exact ⟨⟨es, h.congr id rfl rfl rfl⟩, hpc⟩
  | setCallback hp hc =>
      simp only [PcOk, hp] at hpc
      exact ⟨⟨es, h.congr (by simp [hc]) rfl rfl rfl⟩, hpc⟩
  | mask hp hc =>
      simp only [PcOk, hp] at hpc
      simp only [Ctl, hp, hc] at hctl
      obtain ⟨⟨ctx, hctx', hconf, -⟩, -⟩ := hctl
      cases hctx'
      refine ⟨⟨es, h.congr (by simp [hc]) rfl rfl rfl⟩, ?_⟩
      show Waiting E.cfg σ.task (Option.getD _ [])
      rw [hconf]
      exact hpc
  | start hp =>
      simp only [PcOk, hp] at hpc
      obtain ⟨hi, hpc'⟩ := taskRun_indexed h
        (show Waiting _ _ (_ :: (Caller.startTasks _).rest) from hpc)
      exact ⟨⟨es, hi⟩, hpc'⟩
  | forked hp hpos hfresh =>
      have hc := hctx (by rw [hp]; rfl)
      simp only [PcOk, hp] at hpc
      obtain ⟨hi, hpc'⟩ := taskRunForked_indexed h hc hpc hpos hfresh
      exact ⟨⟨_, hi⟩, hpc'⟩
  | forkFailed hp =>
      simp only [PcOk, hp] at hpc
      exact ⟨⟨es, h.congr id rfl rfl rfl⟩, PcOk.caller hpc.tail rfl⟩
  | enter => exact ⟨⟨es, h.congr id rfl rfl rfl⟩, trivial⟩
  | reap hp hmem _ => exact reaped_indexed h (hctx (by rw [hp]; rfl)) hmem hp
  | close | post => exact ⟨⟨es, h.congr (by simp) rfl rfl rfl⟩, trivial⟩
  | childExit hmem _ =>
      exact ⟨⟨es, h.holds, h.alloc, h.entries, h.kids.exit _, h.idle⟩, hpc.congr rfl rfl⟩
  | adopt hpos hfresh =>
      exact ⟨⟨es, h.holds, h.alloc, h.entries, h.kids.adopt hpos hfresh, h.idle⟩,
        hpc.congr rfl rfl⟩
  | raise => exact ⟨⟨es, h.congr id rfl rfl rfl⟩, hpc.congr rfl rfl⟩
  | @deliver s halive _ _ =>
      refine ⟨⟨es, h.congr (by simp) (by simp) (by simp) (by simp)⟩, ?_⟩
      rcases pc_deliver s σ with hp | ⟨-, hp⟩ | hp
      · exact hpc.congr hp (by simp)
      · unfold PcOk
        rw [hp]
        trivial
      · unfold PcOk
        rw [hp]
        trivial

/-- The index agrees with the tasks and the kernel in every reachable state. -/
theorem indexed_reach {E : Env τ} (h : Reach (next E.cfg) anyInput (init E) σ) :
    (∃ es, Indexed E.cfg σ es) ∧ PcOk E.cfg σ :=
  h.invariant (indexed_init E) fun _ _ _ hr hi _ hn =>
    indexed_step (ctl_reach hr) hi.1 hi.2 (step_of_next hn)

/-- No tree operation ever follows an invalid link. -/
theorem not_treeFault {E : Env τ} (h : Reach (next E.cfg) anyInput (init E) σ) :
    σ.pc ≠ .treeFault := fun hp => by
  have hpc := (indexed_reach h).2
  simp [PcOk, hp] at hpc

/-- The lookup of a task's pid finds the task if it runs. -/
theorem Indexed.find_task (h : Indexed cfg σ es) (hctx : σ.ctx.isSome = true) (ht : t ∈ cfg.tasks) :
    σ.find cfg (σ.task t).pid = some (if (σ.task t).status = .running then some t else none) := by
  by_cases hr : (σ.task t).status = .running
  · obtain ⟨c, hc, hco, hcp⟩ := h.kids.running t ht hr
    rw [if_pos hr, ← hcp, h.find_child hctx hc, hco]
  · have hh := h.holds hctx
    have hlt := h.entries.length_lt_fuel hh
    obtain ⟨r, hrun, hsome, -⟩ :=
      hh.find (show es.length < cfg.fuel by omega) (pidKey (σ.task t).pid)
    have hnone : r = none := by
      cases r with
      | none => rfl
      | some u =>
          -- no running task has the pid 0
          obtain ⟨v, hv, hvr, heq⟩ := (h.entries _).mp (hsome u rfl)
          obtain ⟨-, hkey⟩ := Prod.mk.inj heq
          obtain ⟨c, hc, -, hcp⟩ := h.kids.running v hv hvr
          have hpos := h.kids.pos c hc
          rw [hcp, ← pidKey_inj.mp hkey, h.idle t ht hr] at hpos
          exact absurd hpos (by decide)
    rw [if_neg hr, State.find, hrun, hnone]
    rfl

end

/-- The task runs: it has the pid of an unreaped child of its own, and its node
is linked once, under that pid. -/
def RunningLinked (σ : State τ) (xs : List (NodeAddr τ)) (t : τ) : Prop :=
  (σ.task t).status = .running ∧ 0 < (σ.task t).pid ∧
    (∃ c ∈ σ.children, c.pid = (σ.task t).pid ∧ c.owner = some t) ∧
    (∃ a ∈ xs, a = .task t) ∧ xs.Nodup ∧ keyAt σ.mem (.task t) = pidKey (σ.task t).pid

/-- The task does not run, and its node is not linked. -/
def IdleUnlinked (σ : State τ) (xs : List (NodeAddr τ)) (t : τ) : Prop :=
  ((σ.task t).status = .init ∨ (σ.task t).status = .finished) ∧ (σ.task t).pid = 0 ∧
    .task t ∉ xs

/-- The listed tasks, the tree with the nodes `xs` and the children agree. -/
structure IndexAgrees [DecidableEq τ] (E : Env τ) (σ : State τ) (xs : List (NodeAddr τ)) :
    Prop where
  conf : ∃ ctx, σ.ctx = some ctx ∧ ctx.conf = some E.cfg.tasks
  inOrder : InOrder σ.mem .sentinel xs
  cases : ∀ t ∈ E.cfg.tasks, RunningLinked σ xs t ∨ IdleUnlinked σ xs t
  exclusive : ∀ t ∈ E.cfg.tasks, ¬(RunningLinked σ xs t ∧ IdleUnlinked σ xs t)
  listed : ∀ a ∈ xs, ∃ t ∈ E.cfg.tasks, a = .task t
  keys_nodup : (xs.map (keyAt σ.mem)).Nodup
  /-- The node that `rbtree_insert` is called on next is not linked. -/
  insert_unlinked : ∀ t caller, σ.pc = .fork t caller → .task t ∉ xs
  /-- The node that `rbtree_delete` is called on next is linked. -/
  delete_linked : ∀ c ∈ σ.children, ∀ t, σ.find E.cfg c.pid = some (some t) → .task t ∈ xs

/-- The index invariant of the supervisor, wherever it is in `context_run`. -/
theorem context_index [DecidableEq τ] {E : Env τ} {σ : State τ}
    (h : Reach (next E.cfg) anyInput (init E) σ) :
    σ.pc ≠ .treeFault ∧ (σ.pc.inLoop = true → ∃ xs, IndexAgrees E σ xs) := by
  obtain ⟨⟨es, hi⟩, hpc⟩ := indexed_reach h
  refine ⟨not_treeFault h, fun hl => ⟨es.map Prod.fst, ?_⟩⟩
  obtain ⟨ctx, hctx, hconf, -⟩ := ((ctl_reach h).running hl).ctx
  have hh := hi.holds (by simp [hctx])
  have hn := (List.nodup_cons.mp hh.nodup).2
  have hmem : ∀ {t}, .task t ∈ es.map Prod.fst ↔
      t ∈ E.cfg.tasks ∧ (σ.task t).status = .running := hi.entries.mem_fst
  refine ⟨⟨ctx, hctx, hconf⟩, hh.inOrder, fun t ht => ?_, ?_, ?_, ?_, ?_, ?_⟩
  · by_cases hr : (σ.task t).status = .running
    · obtain ⟨c, hc, hco, hcp⟩ := hi.kids.running t ht hr
      have he := (hi.entries _).mpr ⟨t, ht, hr, rfl⟩
      exact Or.inl ⟨hr, hcp ▸ hi.kids.pos c hc, ⟨c, hc, hcp, hco⟩,
        ⟨_, hmem.mpr ⟨ht, hr⟩, rfl⟩, hn, hh.keyAt_eq he⟩
    · refine Or.inr ⟨?_, hi.idle t ht hr, fun hm => hr (hmem.mp hm).2⟩
      cases hst : (σ.task t).status with
      | init => exact Or.inl rfl
      | running => exact absurd hst hr
      | finished => exact Or.inr rfl
  · rintro t ht ⟨⟨-, -, -, ⟨a, ha, rfl⟩, -⟩, -, -, hna⟩
    exact hna ha
  · intro a ha
    obtain ⟨e, he, rfl⟩ := List.mem_map.mp ha
    obtain ⟨t, ht, -, rfl⟩ := (hi.entries e).mp he
    exact ⟨t, ht, rfl⟩
  · rw [List.map_map]
    have hes : es.Nodup := hn.of_map _
    refine hes.map_on fun d hd e he hk => hi.key_inj hd he ?_
    simpa [hh.keyAt_eq hd, hh.keyAt_eq he] using hk
  · intro t caller hp hm
    simp only [PcOk, hp] at hpc
    exact (hpc.2 t List.mem_cons_self).2 (hmem.mp hm).2
  · intro c hc t ht
    have ho : c.owner = some t := by
      rw [hi.find_child (by simp [hctx]) hc] at ht
      simpa using ht
    obtain ⟨hm, hr, -⟩ := hi.kids.owner c hc t ho
    exact hmem.mpr ⟨hm, hr⟩

/-- The index after `oneTask` is started, reaped and restarted. -/
theorem context_index_oneTask :
    ∃ σ xs, Reach (next oneTask.cfg) anyInput (init oneTask) σ ∧ σ.pc = .waitpid ∧
      IndexAgrees oneTask σ xs := by
  have hrun : (runFrom (next oneTask.cfg) (init oneTask)
      [.sys .ok, .sys .ok, .sys .ok, .sys .ok, .sys .ok, .sys .ok, .sys .ok, .sys (.pid 100),
        .sys .ok, .childExit 100, .deliver .chld, .sys .ok, .sys (.pid 100), .sys (.pid 101)]).map
      (fun σ => decide (σ.pc = .waitpid)) = some true := by
    decide +kernel
  obtain ⟨σ, hσ, hpc⟩ := Option.map_eq_some_iff.mp hrun
  have hpc : σ.pc = .waitpid := of_decide_eq_true hpc
  have hreach := Reach.of_runFrom hσ
  obtain ⟨xs, hxs⟩ := (context_index hreach).2 (by rw [hpc]; rfl)
  exact ⟨σ, xs, hreach, hpc, hxs⟩

end Bitzer
