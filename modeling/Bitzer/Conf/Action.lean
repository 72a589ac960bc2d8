import Mathlib.Data.List.Induction
import Bitzer.Task

/-!
# The actions of the grammar

The C code of `conf_gram.y` on the static `task`, its growing arrays and
`conf->tasks_list`. An action is `none` where it would dereference a null
`task` or leave an array; allocation is taken to succeed.
-/

namespace Bitzer

/-! ## Growing arrays -/

namespace StrArray

/-- `realloc` to `n` slots. -/
def realloc (n : Nat) (a : StrArray) : StrArray :=
  let old := a.slots.getD []
  { a with slots := some (old.take n ++ List.replicate (n - old.length) .indeterminate) }

/-- `check_task_member`. -/
def checkTaskMember (needsize incrsize : Nat) (a : StrArray) : StrArray :=
  if a.len + needsize > a.total then
    { a.realloc (a.total + incrsize) with total := a.total + incrsize }
  else a

/-- `a[i]`. -/
def read (i : Nat) (a : StrArray) : Option Slot := a.slots.bind fun slots => slots[i]?

/-- `a[i] = v`. -/
def write (i : Nat) (v : Slot) (a : StrArray) : Option StrArray :=
  a.slots.bind fun slots =>
    if i < slots.length then some { a with slots := some (slots.set i v) } else none

/-- `a[a_len++] = v`. -/
def push (v : Slot) (a : StrArray) : Option StrArray :=
  (a.write a.len v).map fun a => { a with len := a.len + 1 }

/-- The loop of the `task` rule, which moves the first `i` slots up by one. -/
def shift : Nat → StrArray → Option StrArray
  | 0, a => some a
  | i + 1, a => do
      let v ← a.read i
      let a ← a.write (i + 1) v
      a.shift i

end StrArray

/-! ## Actions -/

structure ParseState where
  /-- `conf->tasks_list`, from its head. -/
  tasksList : List Task
  /-- The static `task`. -/
  task : Option Task
  deriving DecidableEq

abbrev Action := ParseState → Option ParseState

/-- `check_task`. -/
def checkTask (st : ParseState) : ParseState :=
  { st with task := some (st.task.getD taskInit) }

/-- An update of `*task`. -/
def onTask (f : Task → Option Task) : Action := fun st => do
  let task ← st.task
  let task ← f task
  return { st with task := some task }

/-- The action of `name`. -/
def nameAction (s : Str) : Action := fun st =>
  onTask (fun task => some { task with name := some s }) (checkTask st)

/-- The action of `path`. -/
def pathAction (s : Str) : Action := fun st =>
  onTask (fun task => some { task with path := some s }) (checkTask st)

/-- The action of `dir`. -/
def dirAction (s : Str) : Action := fun st =>
  onTask (fun task => some { task with dir := some s }) (checkTask st)

/-- `CONF_DEFAULT_LEN`. -/
def confDefaultLen : Nat := 10

/-- The action of `argslist`. -/
def argAction (s : Str) : Action := fun st =>
  onTask (fun task => do
    let args ← (task.args.checkTaskMember 1 confDefaultLen).push (.str s)
    return { task with args := args }) (checkTask st)

/-- The action of `env`. -/
def envAction (s : Str) : Action := fun st =>
  onTask (fun task => do
    let envp ← (task.envp.checkTaskMember 1 confDefaultLen).push (.str s)
    return { task with envp := envp }) (checkTask st)

/-- A `const char *` stored in a slot. -/
def Slot.ofStr : Option Str → Slot
  | none => .null
  | some s => .str s

/-- The action of `task`: `args` gets the path in front and a `NULL` at its end,
`envp` a `NULL`, and the task goes to the head of the list. -/
def taskAction : Action := fun st => do
  let task ← st.task
  let args := task.args.checkTaskMember 2 2
  let args ← args.shift args.len
  let args ← args.write 0 (Slot.ofStr task.path)
  let args ← { args with len := args.len + 1 }.push .null
  let envp ← if task.envp.slots.isSome then (task.envp.checkTaskMember 1 1).push .null
    else some task.envp
  return { tasksList := { task with args := args, envp := envp } :: st.tasksList, task := none }

/-- No action, or `$$ = $1`. -/
def Action.skip : Action := some

/-- One action after the other. -/
def Action.seq (f g : Action) : Action := fun st => (f st).bind g

@[simp] theorem Action.skip_seq (f : Action) : Action.skip.seq f = f := rfl

@[simp] theorem Action.seq_skip (f : Action) : f.seq Action.skip = f := by
  funext st
  exact Option.bind_fun_some (f st)

theorem Action.seq_assoc (f g h : Action) : (f.seq g).seq h = f.seq (g.seq h) := by
  funext st
  exact Option.bind_assoc (f st) g h

/-! ## What the arrays hold -/

/-- The used slots of the array hold `vs`, and `_total` is the number of slots. -/
def StrArray.Contains (a : StrArray) (vs : List Slot) : Prop :=
  ∃ junk, a.slots.getD [] = vs ++ junk ∧ a.len = vs.length ∧ a.total = (vs ++ junk).length

namespace StrArray.Contains

variable {a : StrArray} {vs : List Slot}

theorem empty : Contains {} [] := ⟨[], rfl, rfl, rfl⟩

theorem unique {ws : List Slot} (h : a.Contains vs) (h' : a.Contains ws) : vs = ws := by
  obtain ⟨junk, hslots, hlen, -⟩ := h
  obtain ⟨junk', hslots', hlen', -⟩ := h'
  exact List.append_inj_left (hslots.symm.trans hslots') (hlen.symm.trans hlen')

/-- There is room for what was asked for. -/
theorem checkTaskMember (h : a.Contains vs) {need incr : Nat} (hle : need ≤ incr) :
    (a.checkTaskMember need incr).Contains vs ∧
      (a.checkTaskMember need incr).len = a.len ∧
      a.len + need ≤ (a.checkTaskMember need incr).total ∧
      (0 < need → (a.checkTaskMember need incr).slots.isSome = true) := by
  obtain ⟨junk, hslots, hlen, htotal⟩ := h
  unfold StrArray.checkTaskMember
  split
  · refine ⟨⟨junk ++ List.replicate incr .indeterminate, ?_, hlen, ?_⟩, rfl, ?_, fun _ => rfl⟩
    · have htake : (vs ++ junk).take (a.total + incr) = vs ++ junk :=
        List.take_of_length_le (by omega)
      have hrep : a.total + incr - (vs ++ junk).length = incr := by omega
      simp only [StrArray.realloc, hslots, Option.getD_some]
      rw [htake, hrep, List.append_assoc]
    · simp only [htotal, List.length_append, List.length_replicate]
      omega
    · simp only [htotal, hlen, List.length_append]
      omega
  · rename_i hroom
    refine ⟨⟨junk, hslots, hlen, htotal⟩, rfl, Nat.not_lt.mp hroom, fun hneed => ?_⟩
    cases hs : a.slots with
    | none =>
        simp only [hs, Option.getD_none] at hslots
        rw [← hslots] at htotal
        simp at htotal
        omega
    | some slots => rfl

theorem slots_eq (h : a.Contains vs) (hroom : a.len < a.total) :
    ∃ v junk, a.slots = some (vs ++ v :: junk) ∧ a.len = vs.length ∧
      a.total = (vs ++ v :: junk).length := by
  obtain ⟨junk, hslots, hlen, htotal⟩ := h
  cases junk with
  | nil =>
      rw [List.append_nil] at htotal
      omega
  | cons v junk =>
      refine ⟨v, junk, ?_, hlen, htotal⟩
      cases hs : a.slots with
      | none =>
          rw [hs] at hslots
          simp at hslots
      | some slots =>
          rw [hs] at hslots
          exact congrArg some hslots

theorem push (h : a.Contains vs) (hroom : a.len < a.total) (v : Slot) :
    ∃ a', a.push v = some a' ∧ a'.Contains (vs ++ [v]) ∧ a'.total = a.total ∧
      a'.slots.isSome = true := by
  obtain ⟨u, junk, hslots, hlen, htotal⟩ := h.slots_eq hroom
  refine ⟨{ slots := some (vs ++ v :: junk), len := a.len + 1, total := a.total }, ?_,
    ⟨junk, by simp, by simp [hlen], by simp [htotal]⟩, rfl, rfl⟩
  simp [StrArray.push, StrArray.write, hslots, hlen]

/-- The shift moves the used slots up by one; the first is left as it was. -/
theorem shift {us rest : List Slot} {c : Slot} (h : a.slots = some (us ++ c :: rest)) :
    ∃ a' x, a.shift us.length = some a' ∧ a'.slots = some (x :: us ++ rest) ∧
      a'.len = a.len ∧ a'.total = a.total := by
  induction us using List.reverseRecOn generalizing a c rest with
  | nil => exact ⟨a, c, rfl, h, rfl, rfl⟩
  | append_singleton us d ih =>
      rw [List.append_assoc, List.singleton_append] at h
      have hread : a.read us.length = some d := by simp [StrArray.read, h]
      have hwrite : a.write (us.length + 1) d =
          some { a with slots := some (us ++ d :: d :: rest) } := by
        simp [StrArray.write, h]
      obtain ⟨a', x, hshift, hslots, hlen, htotal⟩ :=
        ih (a := { a with slots := some (us ++ d :: d :: rest) }) rfl
      refine ⟨a', x, ?_, by rw [hslots]; simp, hlen, htotal⟩
      rw [List.length_append, List.length_singleton, StrArray.shift, hread]
      simp only [Option.bind_eq_bind, Option.bind_some, hwrite]
      exact hshift

/-- The shift and the store of the path. -/
theorem unshift (h : a.Contains vs) (hroom : a.len < a.total) (v : Slot) :
    ∃ a₁ a₂, a.shift a.len = some a₁ ∧ a₁.write 0 v = some a₂ ∧
      { a₂ with len := a₂.len + 1 }.Contains (v :: vs) ∧ a₂.len = a.len ∧ a₂.total = a.total := by
  obtain ⟨u, junk, hslots, hlen, htotal⟩ := h.slots_eq hroom
  obtain ⟨a₁, x, hshift, hslots₁, hlen₁, htotal₁⟩ := shift hslots
  refine ⟨a₁, { a₁ with slots := some (v :: vs ++ junk) }, by rw [hlen, hshift], ?_,
    ⟨junk, rfl, ?_, ?_⟩, hlen₁, htotal₁⟩
  · simp [StrArray.write, hslots₁]
  · simp [hlen₁, hlen]
  · simp [htotal₁, htotal]
    omega

end StrArray.Contains

end Bitzer
