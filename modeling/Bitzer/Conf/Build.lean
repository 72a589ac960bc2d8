import Bitzer.Conf.Action

/-!
# What the actions build

`Options` is what the options of a block say; `Reads` says that the task under
construction says the same, and each action adds its option to both. The action
at the closing brace turns it into the task that is run (`Yields`).
-/

namespace Bitzer

/-- The options of a block so far. -/
structure Options where
  name : Option Str := none
  path : Option Str := none
  dir : Option Str := none
  args : List Str := []
  env : List Str := []

/-- The task has the options. -/
structure Reads (task : Task) (o : Options) : Prop where
  name : task.name = o.name
  path : task.path = o.path
  dir : task.dir = o.dir
  args : task.args.Contains (o.args.map .str)
  env : task.envp.Contains (o.env.map .str)
  envp : task.envp.slots.isSome = true ↔ o.env ≠ []
  fresh : task.Fresh

/-- The task is ready for `task_run`: `args` and `envp` end with a `NULL`, `args`
begins with the path, and `envp` is `NULL` if there is no `env` option. -/
structure Yields (task : Task) (o : Options) : Prop where
  name : task.name = o.name
  path : task.path = o.path
  dir : task.dir = o.dir
  args : task.args.Contains (Slot.ofStr o.path :: o.args.map .str ++ [.null])
  env : o.env ≠ [] → task.envp.Contains (o.env.map .str ++ [.null])
  no_env : o.env = [] → task.envp.slots = none
  fresh : task.Fresh

/-- What a parse state says of the block it is in. -/
def ParseState.Reads (st : ParseState) (o : Options) : Prop :=
  Bitzer.Reads (st.task.getD taskInit) o

/-- The action takes what the state says from `o` to `o'`, and leaves the tasks
before the block alone. -/
def Action.Adds (f : Action) (o o' : Options) : Prop :=
  ∀ st : ParseState, st.Reads o →
    ∃ st', f st = some st' ∧ st'.tasksList = st.tasksList ∧ st'.Reads o'

section
variable {st : ParseState} {o o₁ o₂ : Options} {f g : Action}

theorem reads_init {l : List Task} : ParseState.Reads ⟨l, none⟩ {} :=
  ⟨rfl, rfl, rfl, .empty, .empty, by simp [taskInit], rfl, rfl, rfl⟩

theorem Action.Adds.skip : Action.skip.Adds o o :=
  fun st h => ⟨st, rfl, rfl, h⟩

theorem Action.Adds.seq (hf : f.Adds o o₁) (hg : g.Adds o₁ o₂) : (f.seq g).Adds o o₂ := by
  intro st h
  obtain ⟨st₁, hst₁, hl₁, h₁⟩ := hf st h
  obtain ⟨st₂, hst₂, hl₂, h₂⟩ := hg st₁ h₁
  exact ⟨st₂, by rw [Action.seq, hst₁]; exact hst₂, hl₂.trans hl₁, h₂⟩

theorem Action.Adds.reads {st' : ParseState} (hf : f.Adds o o₁) (hr : st.Reads o)
    (h : f st = some st') : st'.Reads o₁ := by
  obtain ⟨st₁, hst₁, -, hr₁⟩ := hf st hr
  rw [h] at hst₁
  cases hst₁
  exact hr₁

/-- An action that updates the task. -/
theorem onTask_adds {u : Task → Option Task}
    (h : ∀ task, Reads task o → ∃ task', u task = some task' ∧ Reads task' o₁) :
    Action.Adds (fun st => onTask u (checkTask st)) o o₁ := by
  intro st hst
  obtain ⟨task', hu, htask⟩ := h _ hst
  refine ⟨⟨st.tasksList, some task'⟩, ?_, rfl, htask⟩
  simp [onTask, checkTask, hu]

theorem nameAction_adds (s : Str) : (nameAction s).Adds o { o with name := some s } :=
  onTask_adds fun _ h => ⟨_, rfl, rfl, h.path, h.dir, h.args, h.env, h.envp, h.fresh⟩

theorem pathAction_adds (s : Str) : (pathAction s).Adds o { o with path := some s } :=
  onTask_adds fun _ h => ⟨_, rfl, h.name, rfl, h.dir, h.args, h.env, h.envp, h.fresh⟩

theorem dirAction_adds (s : Str) : (dirAction s).Adds o { o with dir := some s } :=
  onTask_adds fun _ h => ⟨_, rfl, h.name, h.path, rfl, h.args, h.env, h.envp, h.fresh⟩

/-- A growing array takes one more string. -/
theorem grow_spec {a : StrArray} {ws : List Str} (h : a.Contains (ws.map .str)) (s : Str) :
    ∃ a', (a.checkTaskMember 1 confDefaultLen).push (.str s) = some a' ∧
      a'.Contains ((ws ++ [s]).map .str) ∧ a'.slots.isSome = true := by
  obtain ⟨hc, hlen, hroom, -⟩ := h.checkTaskMember (show 1 ≤ confDefaultLen by decide)
  obtain ⟨a', hpush, hc', -, hsome⟩ := hc.push (by omega) (.str s)
  exact ⟨a', hpush, by simpa using hc', hsome⟩

theorem argAction_adds (s : Str) : (argAction s).Adds o { o with args := o.args ++ [s] } := by
  refine onTask_adds fun task h => ?_
  obtain ⟨args, hpush, hc, -⟩ := grow_spec h.args s
  refine ⟨{ task with args := args }, ?_, h.name, h.path, h.dir, hc, h.env, h.envp, h.fresh⟩
  rw [hpush]
  rfl

theorem envAction_adds (s : Str) : (envAction s).Adds o { o with env := o.env ++ [s] } := by
  refine onTask_adds fun task h => ?_
  obtain ⟨envp, hpush, hc, hsome⟩ := grow_spec h.env s
  refine ⟨{ task with envp := envp }, ?_, h.name, h.path, h.dir, h.args, hc,
    iff_of_true hsome (by simp), h.fresh⟩
  rw [hpush]
  rfl

/-- What the action at the closing brace does. -/
theorem taskAction_iff {st' : ParseState} : taskAction st = some st' ↔
    ∃ task a₁ a₂ args envp, st.task = some task ∧
      (task.args.checkTaskMember 2 2).shift (task.args.checkTaskMember 2 2).len = some a₁ ∧
      a₁.write 0 (Slot.ofStr task.path) = some a₂ ∧
      ({ a₂ with len := a₂.len + 1 } : StrArray).push .null = some args ∧
      (if task.envp.slots.isSome then (task.envp.checkTaskMember 1 1).push .null
        else some task.envp) = some envp ∧
      st' = ⟨{ task with args := args, envp := envp } :: st.tasksList, none⟩ := by
  constructor
  · intro h
    obtain ⟨task, htask, h⟩ := Option.bind_eq_some_iff.mp h
    obtain ⟨a₁, hshift, h⟩ := Option.bind_eq_some_iff.mp h
    obtain ⟨a₂, hwrite, h⟩ := Option.bind_eq_some_iff.mp h
    obtain ⟨args, hpush, h⟩ := Option.bind_eq_some_iff.mp h
    refine ⟨task, a₁, a₂, args, ?_⟩
    split at h
    · obtain ⟨envp, henvp, h⟩ := Option.bind_eq_some_iff.mp h
      exact ⟨envp, htask, hshift, hwrite, hpush, by rw [if_pos ‹_›, henvp],
        (Option.some.inj h).symm⟩
    · exact ⟨task.envp, htask, hshift, hwrite, hpush, by rw [if_neg ‹_›],
        (Option.some.inj h).symm⟩
  · rintro ⟨task, a₁, a₂, args, envp, htask, hshift, hwrite, hpush, henvp, rfl⟩
    simp only [taskAction, htask, Option.bind_eq_bind, Option.bind_some, hshift, hwrite, hpush]
    split at henvp
    · rw [if_pos ‹_›, henvp]
      rfl
    · rw [if_neg ‹_›]
      cases henvp
      rfl

/-- The closing brace. -/
theorem taskAction_spec {l : List Task} {task : Task} (h : Reads task o) :
    ∃ task', taskAction ⟨l, some task⟩ = some ⟨task' :: l, none⟩ ∧ Yields task' o := by
  obtain ⟨hc, hlen, hroom, -⟩ := h.args.checkTaskMember (Nat.le_refl 2)
  obtain ⟨a₁, a₂, hshift, hwrite, hc₂, hlen₂, htotal₂⟩ :=
    hc.unshift (by omega) (Slot.ofStr task.path)
  obtain ⟨args, hpush, hargs, -⟩ := hc₂.push (by simp only; omega) .null
  by_cases he : o.env = []
  · have hnone : task.envp.slots = none := by
      cases hs : task.envp.slots with
      | none => rfl
      | some slots => exact absurd he (h.envp.mp (by rw [hs]; rfl))
    refine ⟨{ task with args := args }, ?_, h.name, h.path, h.dir, by rwa [← h.path],
      fun hne => absurd he hne, fun _ => hnone, h.fresh⟩
    simp [taskAction, hshift, hwrite, hpush, hnone]
  · obtain ⟨hce, hlene, hroome, -⟩ := h.env.checkTaskMember (Nat.le_refl 1)
    obtain ⟨envp, hpushe, henv, -⟩ := hce.push (by omega) .null
    have hsome : task.envp.slots.isSome = true := h.envp.mpr he
    refine ⟨{ task with args := args, envp := envp }, ?_, h.name, h.path, h.dir, by rwa [← h.path],
      fun _ => henv, fun hn => absurd hn he, h.fresh⟩
    simp [taskAction, hshift, hwrite, hpush, hsome, hpushe]

/-- A block that creates the task gives the task of its options. -/
theorem block_spec {l : List Task} (h : f.Adds {} o)
    (hc : ∀ st', f ⟨l, none⟩ = some st' → st'.task.isSome = true) :
    ∃ task, f.seq taskAction ⟨l, none⟩ = some ⟨task :: l, none⟩ ∧ Yields task o := by
  obtain ⟨⟨l', t⟩, hf, rfl, hreads⟩ := h ⟨l, none⟩ reads_init
  cases t with
  | none => exact absurd (hc _ hf) (by simp)
  | some task =>
      obtain ⟨task', htask, hyields⟩ := taskAction_spec (l := l') hreads
      exact ⟨task', by rw [Action.seq, hf]; exact htask, hyields⟩

/-- A `name` option creates the task. -/
theorem ParseState.Reads.isSome (h : st.Reads o) (hname : o.name ≠ none) :
    st.task.isSome = true := by
  cases ht : st.task with
  | some task => rfl
  | none =>
      have hn := h.name
      rw [ht] at hn
      exact absurd hn.symm hname

end

end Bitzer
