import Bitzer.Context.Restart
import Mathlib.Data.Nat.Count

/-!
# How long the `waitpid` loop runs

An iteration of the loop reaps an exited child, and the child that it starts
instead may exit before the next `waitpid`. So there is no bound on a call of
`context_event_handler` but the number of children that exit until it returns
(`Drains`): it goes on for as long as they do.
-/

namespace Bitzer

open Lib

variable {τ : Type}

/-- The children that wait to be reaped. -/
def State.zombies (σ : State τ) : Nat := σ.children.countP Child.exited

def Input.isExit : Input → Bool
  | .childExit _ => true
  | _ => false

/-- The steps in the loop. -/
inductive Drains (σ : State τ) (i : Input) (σ' : State τ) : Prop
  | reap (hp : σ.pc = .waitpid) (hi : i.isSys = true) (hz : σ'.zombies + 1 = σ.zombies)
      (hpc : σ'.pc.reaping = true)
  | leave (hp : σ.pc = .waitpid) (hi : i.isSys = true) (hz : σ'.zombies = σ.zombies)
      (hpc : σ'.pc = .callback)
  | fork {t : τ} (hp : σ.pc = .fork t .restartTask) (hi : i.isSys = true)
      (hz : σ'.zombies = σ.zombies) (hpc : σ'.pc = .waitpid)
  | env (hi : i.isSys = false)
      (hz : σ'.zombies = σ.zombies + if i.isExit = true then 1 else 0) (hpc : σ'.pc = σ.pc)

theorem Pc.inLoop_of_reaping {pc : Pc τ} (h : pc.reaping = true) : pc.inLoop = true := by
  unfold Pc.reaping at h
  split at h <;> first | rfl | cases h

/-- Of the children with distinct pids one exits. -/
theorem zombies_exit {cs : List (Child τ)} {c : Child τ} (hn : (cs.map Child.pid).Nodup)
    (hc : c ∈ cs) (he : c.exited = false) :
    (cs.map fun d => if d.pid = c.pid then { d with exited := true } else d).countP Child.exited =
      cs.countP Child.exited + 1 := by
  obtain ⟨l₁, l₂, rfl⟩ := List.append_of_mem hc
  rw [List.map_append, List.map_cons, List.nodup_append, List.nodup_cons] at hn
  obtain ⟨-, ⟨h₂, -⟩, h₁⟩ := hn
  have hother : ∀ l : List (Child τ), (∀ d ∈ l, d.pid ≠ c.pid) →
      (l.map fun d => if d.pid = c.pid then { d with exited := true } else d) = l := by
    intro l hl
    refine (List.map_congr_left fun d hd => ?_).trans (List.map_id l)
    exact if_neg (hl d hd)
  have hl₁ := hother l₁ fun d hd h => h₁ _ (List.mem_map_of_mem hd) _ List.mem_cons_self h
  have hl₂ := hother l₂ fun d hd h => h₂ (h ▸ List.mem_map_of_mem hd)
  rw [List.map_append, List.map_cons, hl₁, hl₂, if_pos rfl, List.countP_append,
    List.countP_append, List.countP_cons_of_pos rfl, List.countP_cons_of_neg (by simp [he])]
  omega

section
variable [DecidableEq τ] {E : Env τ} {σ σ' : State τ} {i : Input}

theorem children_reaped (cfg : Config τ) (c : Child τ) (σ : State τ) :
    (reaped cfg c σ).children = σ.children.erase c := by
  unfold reaped
  dsimp only
  split
  · rfl
  · rfl
  · unfold contextRestartTask
    split <;> rfl

theorem zombies_erase {cs : List (Child τ)} {c : Child τ} (hc : c ∈ cs) (he : c.exited = true) :
    (cs.erase c).countP Child.exited + 1 = cs.countP Child.exited := by
  rw [(List.perm_cons_erase hc).countP_eq, List.countP_cons_of_pos he]

/-- The steps of the loop in the states that the supervisor can reach. -/
theorem drains_of_next (hr : Reach (next E.cfg) anyInput (init E) σ) (hl : σ.pc.reaping = true)
    (hn : next E.cfg σ i = some σ') : Drains σ i σ' := by
  have hfault : σ'.pc ≠ .treeFault := not_treeFault (.step hr trivial hn)
  have hrun := (ctl_reach hr).running (Pc.inLoop_of_reaping hl)
  obtain ⟨⟨es, hi⟩, -⟩ := indexed_reach hr
  cases step_of_next hn with
  | goto hg =>
      cases hg with
      | drained hp _ | childless hp _ => exact .leave hp rfl rfl rfl
      | pidfile hp | pidfileFailed hp | createFailed hp | initFailed hp | maskFailed hp
      | started hp | unexpected hp | noChild hp | callback hp | exit hp =>
          rw [hp] at hl
          cases hl
  | create hp | load hp | assign hp | setCallback hp | mask hp | start hp | enter hp | close hp
  | post hp =>
      rw [hp] at hl
      cases hl
  | @forked t caller p hp =>
      cases caller with
      | startTasks rest =>
          rw [hp] at hl
          cases hl
      | restartTask =>
          obtain ⟨mem, heq⟩ := taskRunForked_eq hfault
          rw [heq]
          exact .fork hp rfl rfl rfl
  | @forkFailed t caller hp =>
      cases caller with
      | startTasks rest =>
          rw [hp] at hl
          cases hl
      | restartTask => exact .fork hp rfl rfl rfl
  | @reap c hp hc he =>
      refine .reap hp rfl ?_ ?_
      · rw [State.zombies, children_reaped]
        exact zombies_erase hc he
      · rcases pc_reaped E.cfg c σ hp with ⟨t, hpc⟩ | hpc | hpc
        · rw [hpc]
          rfl
        · rw [hpc]
          rfl
        · exact absurd hpc hfault
  | childExit hc he => exact .env rfl (zombies_exit hi.kids.nodup hc he) rfl
  | adopt | raise => exact .env rfl rfl rfl
  | @deliver s ha hp hb =>
      refine .env rfl (by simp [State.zombies, Input.isExit]) ?_
      rw [deliver_pc, if_pos hrun.contextLive, if_neg]
      intro h
      rw [h] at hl
      cases hl

/-- In the loop the kernel has an answer to every system call. -/
theorem reaping_answers (cfg : Config τ) (hl : σ.pc.reaping = true) :
    ∃ a σ', next cfg σ (.sys a) = some σ' := by
  cases hp : σ.pc with
  | waitpid =>
      by_cases hz : ∃ c ∈ σ.children, c.exited = true
      · obtain ⟨c, hc, he⟩ := hz
        have hfind : (σ.children.find? fun d => d.exited && d.pid == c.pid).isSome = true :=
          List.find?_isSome.mpr ⟨c, hc, by simp [he]⟩
        obtain ⟨d, hd⟩ := Option.isSome_iff_exists.mp hfind
        exact ⟨.pid c.pid, reaped cfg d σ, by simp [next, sysStep, hp, hd]⟩
      · have hno : ∀ c ∈ σ.children, c.exited = false := by simpa using hz
        by_cases hnil : σ.children = []
        · refine ⟨.err, { σ with pc := .callback }, ?_⟩
          simp only [next, sysStep, hp, if_pos hnil]
        · refine ⟨.zero, { σ with pc := .callback }, ?_⟩
          simp only [next, sysStep, hp, if_pos (And.intro hnil hno)]
  | fork t caller => exact ⟨.err, taskRunFailed caller t σ, by simp [next, sysStep, hp]⟩
  | _ =>
      rw [hp] at hl
      cases hl

/-! ## A call of `context_event_handler` -/

/-- A run that gives the process its turn again and again. -/
def Fair {next : State τ → Input → Option (State τ)} (r : Run next) : Prop :=
  ∀ n, ∃ m, n ≤ m ∧ (r.input m).isSys = true

/-- The iterations of the `waitpid` loop before `n`. -/
def iterations {next : State τ → Input → Option (State τ)} (r : Run next) (n : Nat) : Nat :=
  Nat.count (fun m => (r.state m).pc = .waitpid ∧ (r.input m).isSys = true) n

/-- The children that exited before `n`. -/
def exitsBefore {next : State τ → Input → Option (State τ)} (r : Run next) (n : Nat) : Nat :=
  Nat.count (fun m => (r.input m).isExit = true) n

theorem Run.drains {r : Run (next E.cfg)}
    (hr : Reach (next E.cfg) anyInput (init E) (r.state 0)) {n : Nat}
    (hl : (r.state n).pc.reaping = true) : Drains (r.state n) (r.input n) (r.state (n + 1)) :=
  drains_of_next (hr.trans (r.reach n)) hl (r.step n)

/-- While the loop runs, each iteration is paid for by a child that had exited
when the call began or has exited since, but for the last one. -/
theorem iterations_balance {r : Run (next E.cfg)}
    (hr : Reach (next E.cfg) anyInput (init E) (r.state 0))
    (hl₀ : (r.state 0).pc.reaping = true) {n : Nat}
    (hl : ∀ m < n, (r.state m).pc.reaping = true) :
    iterations r n + (r.state n).zombies =
      (r.state 0).zombies + exitsBefore r n +
        if (r.state n).pc.reaping = true then 0 else 1 := by
  induction n with
  | zero => simp [iterations, exitsBefore, hl₀]
  | succ n ih =>
      have hn := hl n (Nat.lt_succ_self n)
      have ih := ih fun m hm => hl m (Nat.lt_succ_of_lt hm)
      rw [if_pos hn] at ih
      rw [iterations, exitsBefore, Nat.count_succ, Nat.count_succ]
      rw [iterations, exitsBefore] at ih
      have hexit : (r.input n).isSys = true → (r.input n).isExit = false := by
        cases r.input n with
        | sys a => exact fun _ => rfl
        | _ => exact fun h => by cases h
      cases Run.drains hr hn with
      | reap hp hi hz hpc =>
          rw [if_pos ⟨hp, hi⟩, if_pos hpc, hexit hi, if_neg Bool.false_ne_true]
          omega
      | leave hp hi hz hpc =>
          have hout : ¬(r.state (n + 1)).pc.reaping = true := by
            rw [hpc]
            exact Bool.false_ne_true
          rw [if_pos ⟨hp, hi⟩, if_neg hout, hexit hi, if_neg Bool.false_ne_true]
          omega
      | fork hp hi hz hpc =>
          have hin : (r.state (n + 1)).pc.reaping = true := by rw [hpc]; rfl
          rw [if_neg (by simp [hp]), if_pos hin, hexit hi, if_neg Bool.false_ne_true]
          omega
      | env hi hz hpc =>
          rw [if_neg (by simp [hi]), hpc, if_pos hn, hz]
          omega

/-- What an exited child and a pending `fork` still cost. -/
def State.loopMeasure (σ : State τ) : Nat := 2 * σ.zombies + if σ.pc = .waitpid then 0 else 1

/-- Without exits the loop is over before long. -/
theorem leaves_of_no_exit {r : Run (next E.cfg)}
    (hr : Reach (next E.cfg) anyInput (init E) (r.state 0)) (hfair : Fair r) {N : Nat}
    (hno : ∀ n, N ≤ n → (r.input n).isExit = false) : ∃ n, ¬(r.state n).pc.reaping = true := by
  by_contra hall
  have hl : ∀ n, (r.state n).pc.reaping = true := fun n => not_not.mp fun h => hall ⟨n, h⟩
  have hfair' : ∀ n, ∃ m, n ≤ m ∧ (r.input (N + m)).isSys = true := by
    intro n
    obtain ⟨m, hm, hsys⟩ := hfair (N + n)
    exact ⟨m - N, by omega, by rwa [Nat.add_sub_of_le (by omega)]⟩
  refine not_fair_of_measure (μ := fun n => (r.state (N + n)).loopMeasure) (fun n => ?_) hfair'
  show (r.state (N + n + 1)).loopMeasure ≤ _ ∧ (_ → (r.state (N + n + 1)).loopMeasure < _)
  unfold State.loopMeasure
  cases Run.drains hr (hl (N + n)) with
  | reap hp hi hz hpc =>
      rw [if_pos hp]
      split <;> constructor <;> intros <;> omega
  | leave hp hi hz hpc =>
      have hin := hl (N + n + 1)
      rw [hpc] at hin
      cases hin
  | fork hp hi hz hpc =>
      rw [if_pos hpc, if_neg (by simp [hp]), hz]
      constructor <;> intros <;> omega
  | env hi hz hpc =>
      rw [hno _ (Nat.le_add_right N n), if_neg Bool.false_ne_true] at hz
      rw [hpc, hz, hi]
      exact ⟨le_rfl, fun h => absurd h Bool.false_ne_true⟩

/-- The loop ends at the callback. -/
theorem callback_of_leaves {r : Run (next E.cfg)}
    (hr : Reach (next E.cfg) anyInput (init E) (r.state 0))
    (hl₀ : (r.state 0).pc.reaping = true) (h : ∃ n, ¬(r.state n).pc.reaping = true) :
    ∃ n, (r.state n).pc = .callback ∧ ∀ m < n, (r.state m).pc.reaping = true := by
  have hfirst := Nat.find_spec h
  have hbefore : ∀ m < Nat.find h, (r.state m).pc.reaping = true :=
    fun m hm => not_not.mp (Nat.find_min h hm)
  refine ⟨Nat.find h, ?_, hbefore⟩
  obtain ⟨k, hk⟩ : ∃ k, Nat.find h = k + 1 := by
    refine Nat.exists_eq_succ_of_ne_zero fun h0 => ?_
    rw [h0] at hfirst
    exact hfirst hl₀
  have hlk := hbefore k (by omega)
  rw [hk] at hfirst ⊢
  cases Run.drains hr hlk with
  | reap _ _ _ hpc => exact absurd hpc hfirst
  | leave _ _ _ hpc => exact hpc
  | fork _ _ _ hpc =>
      rw [hpc] at hfirst
      exact absurd rfl hfirst
  | env _ _ hpc =>
      rw [hpc] at hfirst
      exact absurd hlk hfirst

/-- A call of `context_event_handler` performs at most one iteration for each
child that has exited when its loop begins, one for each that exits until it
returns, and one more. It returns, unless children keep exiting. -/
theorem reaping_ends {r : Run (next E.cfg)}
    (hr : Reach (next E.cfg) anyInput (init E) (r.state 0)) (hpc : (r.state 0).pc = .waitpid) :
    (∀ n, (∀ m < n, (r.state m).pc.reaping = true) →
      iterations r n ≤ (r.state 0).zombies + exitsBefore r n + 1) ∧
    (∀ n, (r.state n).pc.reaping = true → ∃ a σ', next E.cfg (r.state n) (.sys a) = some σ') ∧
    (Fair r →
      (∃ n, (r.state n).pc = .callback ∧ ∀ m < n, (r.state m).pc.reaping = true) ∨
      ((∀ n, (r.state n).pc.reaping = true) ∧ ∀ n, ∃ m, n ≤ m ∧ (r.input m).isExit = true)) := by
  have hl₀ : (r.state 0).pc.reaping = true := by rw [hpc]; rfl
  refine ⟨fun n hl => ?_, fun n => reaping_answers E.cfg, fun hfair => ?_⟩
  · have hb := iterations_balance hr hl₀ hl
    split at hb <;> omega
  · by_cases hall : ∃ n, ¬(r.state n).pc.reaping = true
    · exact Or.inl (callback_of_leaves hr hl₀ hall)
    · refine Or.inr ⟨fun n => not_not.mp fun h => hall ⟨n, h⟩, fun N => ?_⟩
      by_contra hno
      have hquiet : ∀ n, N ≤ n → (r.input n).isExit = false := fun n hn =>
        Bool.eq_false_iff.mpr fun he => hno ⟨n, hn, he⟩
      exact hall (leaves_of_no_exit hr hfair hquiet)

/-- Every call returns, whatever the environment does. -/
def LoopEnds (E : Env τ) : Prop :=
  ∀ r : Run (next E.cfg), Reach (next E.cfg) anyInput (init E) (r.state 0) →
    (r.state 0).pc = .waitpid → Fair r → ∃ n, (r.state n).pc = .callback

end

/-! ## A process that exits as soon as it is started -/

/-- `oneTask`'s process has exited, is being started again, or runs. -/
structure Respawns (σ : State Nat) : Prop where
  reach : Reach (next oneTask.cfg) anyInput (init oneTask) σ
  runnable : (σ.task 0).runnable = true
  place : (σ.pc = .waitpid ∧ σ.children = [⟨1, some 0, true⟩]) ∨
    (σ.pc = .fork 0 .restartTask ∧ σ.children = []) ∨
      (σ.pc = .waitpid ∧ σ.children = [⟨1, some 0, false⟩])

/-- The process exits before the next `waitpid`, which is the next step then. -/
def Relapse (σ : State Nat) (i : Input) (σ' : State Nat) : Prop :=
  (σ.children ≠ [⟨1, some 0, false⟩] → i.isSys = true) ∧
    (σ.children = [⟨1, some 0, false⟩] → σ'.children ≠ [⟨1, some 0, false⟩])

theorem Respawns.step {σ : State Nat} (h : Respawns σ) :
    ∃ i σ', next oneTask.cfg σ i = some σ' ∧ Relapse σ i σ' ∧ Respawns σ' := by
  obtain ⟨hr, hrun, hplace⟩ := h
  rcases hplace with ⟨hp, hc⟩ | ⟨hp, hc⟩ | ⟨hp, hc⟩
  · -- the child is reaped
    have hn : next oneTask.cfg σ (.sys (.pid 1)) =
        some (reaped oneTask.cfg ⟨1, some 0, true⟩ σ) := by
      simp [next, sysStep, hp, hc]
    have hr' := hr.step trivial hn
    have hmem : ⟨1, some 0, true⟩ ∈ σ.children := by simp [hc]
    have hchildren := children_reaped oneTask.cfg ⟨1, some 0, true⟩ σ
    rw [hc] at hchildren
    obtain ⟨ht, hpc⟩ : (reaped oneTask.cfg ⟨1, some 0, true⟩ σ).task =
        Function.update σ.task 0 (taskReset (σ.task 0)) ∧
          (reaped oneTask.cfg ⟨1, some 0, true⟩ σ).pc = .fork 0 .restartTask := by
      rcases reaped_cases hr hp hmem (not_treeFault hr') with ⟨ho, -⟩ | ⟨t, ho, ht, -, hpc⟩
      · cases ho
      · cases ho
        rw [if_pos hrun] at hpc
        exact ⟨ht, hpc⟩
    refine ⟨_, _, hn, ⟨fun _ => rfl, fun h => ?_⟩, hr', ?_, Or.inr (Or.inl ⟨hpc, ?_⟩)⟩
    · rw [hc] at h
      cases h
    · simpa [ht] using hrun
    · simpa using hchildren
  · -- its task is forked again
    have hn : next oneTask.cfg σ (.sys (.pid 1)) =
        some (taskRunForked oneTask.cfg .restartTask 0 1 σ) := by
      simp [next, sysStep, hp, State.freshPid, hc]
    have hr' := hr.step trivial hn
    obtain ⟨mem, heq⟩ := taskRunForked_eq (not_treeFault hr')
    refine ⟨_, _, hn, ⟨fun _ => rfl, fun h => ?_⟩, hr', ?_, Or.inr (Or.inr ?_)⟩
    · rw [hc] at h
      cases h
    · simpa [heq] using hrun
    · rw [heq, hc]
      exact ⟨rfl, rfl⟩
  · -- and exits
    have hn : next oneTask.cfg σ (.childExit 1) = some { σ with
        children := [⟨1, some 0, true⟩]
        pending := Function.update σ.pending .chld true } := by
      simp [next, hc]
    exact ⟨_, _, hn, ⟨fun h => absurd hc h, fun _ => by simp⟩, hr.step trivial hn, hrun,
      Or.inl ⟨hp, rfl⟩⟩

/-- The process exits again and again, and the loop goes on forever. -/
theorem exists_respawns : ∃ r : Run (next oneTask.cfg),
    Reach (next oneTask.cfg) anyInput (init oneTask) (r.state 0) ∧ (r.state 0).pc = .waitpid ∧
      Fair r ∧ ∀ n, (r.state n).pc ≠ .callback := by
  have hrun : (runFrom (next oneTask.cfg) (init oneTask)
      [.sys .ok, .sys .ok, .sys .ok, .sys .ok, .sys .ok, .sys .ok, .sys .ok, .sys (.pid 1),
        .sys .ok, .childExit 1, .deliver .chld, .sys .ok]).map
      (fun σ => decide (σ.pc = .waitpid) && (σ.task 0).runnable &&
        decide (σ.children = [⟨1, some 0, true⟩])) = some true := by
    decide +kernel
  obtain ⟨σ, hσ, hst⟩ := Option.map_eq_some_iff.mp hrun
  simp only [Bool.and_eq_true, decide_eq_true_eq] at hst
  obtain ⟨⟨hpc, hrunnable⟩, hc⟩ := hst
  have hstart : Respawns σ := ⟨Reach.of_runFrom hσ, hrunnable, Or.inl ⟨hpc, hc⟩⟩
  obtain ⟨r, rfl, hr⟩ := exists_run (fun _ => Respawns.step) hstart
  refine ⟨r, hstart.reach, hpc, fun n => ?_, fun n hn => ?_⟩
  · by_cases hn : (r.state n).children = [⟨1, some 0, false⟩]
    · exact ⟨n + 1, Nat.le_succ n, (hr (n + 1)).2.1 ((hr n).2.2 hn)⟩
    · exact ⟨n, le_rfl, (hr n).2.1 hn⟩
  · rcases (hr n).1.place with ⟨hp, -⟩ | ⟨hp, -⟩ | ⟨hp, -⟩
    all_goals
      rw [hp] at hn
      cases hn

theorem not_loopEnds : ¬LoopEnds oneTask := by
  intro h
  obtain ⟨r, hr, hpc, hfair, hno⟩ := exists_respawns
  obtain ⟨n, hn⟩ := h r hr hpc hfair
  exact hno n hn

theorem reaping_ends_oneTask : ∃ r : Run (next oneTask.cfg), (∀ n, (r.state n).pc ≠ .callback) ∧
    (∀ n, (∀ m < n, (r.state m).pc.reaping = true) →
      iterations r n ≤ (r.state 0).zombies + exitsBefore r n + 1) ∧
    ∀ n, ∃ m, n ≤ m ∧ (r.input m).isExit = true := by
  obtain ⟨r, hr, hpc, hfair, hno⟩ := exists_respawns
  obtain ⟨hbound, -, hends⟩ := reaping_ends hr hpc
  rcases hends hfair with ⟨n, hn, -⟩ | ⟨-, hexits⟩
  · exact absurd hn (hno n)
  · exact ⟨r, hno, hbound, hexits⟩

end Bitzer
