import Mathlib.Tactic.Common

/-!
# Tasks

`struct task_s` and the part of `task.c` that the supervisor and the parser
use. Strings are the bytes before the terminating NUL.
-/

namespace Bitzer

/-- A C string. -/
abbrev Str := List UInt8

/-- What a slot of an allocated `char **` array holds. -/
inductive Slot where
  | indeterminate
  | null
  | str (s : Str)
  deriving DecidableEq, Repr

/-- The three members of a growing `char **` array: its slots (`none` for
`NULL`), `_len` and `_total`. -/
structure StrArray where
  slots : Option (List Slot) := none
  len : Nat := 0
  total : Nat := 0
  deriving DecidableEq, Repr

inductive TaskStatus where
  | init
  | running
  | finished
  deriving DecidableEq, Repr

/-- `struct task_s`, without its links, its start time and `log_path`, which only a child
sets. Its `ctx` is left out: a process has one context, and every `task_init` stores that. -/
structure Task where
  pid : Int32 := 0
  startCount : UInt64 := 0
  path : Option Str := none
  name : Option Str := none
  dir : Option Str := none
  args : StrArray := {}
  envp : StrArray := {}
  status : TaskStatus := .init
  deriving DecidableEq

/-- `task_init`. -/
def taskInit : Task := {}

/-- `task_reset`. -/
def taskReset (task : Task) : Task :=
  { task with pid := 0, status := .finished }

/-- The guard of `task_run`: without a name and a path it does not fork. -/
def Task.runnable (task : Task) : Bool := task.name.isSome && task.path.isSome

/-- The end of `task_run` in the parent, where `fork` returned `pid`. -/
def taskStarted (pid : Int32) (task : Task) : Task :=
  { task with pid := pid, status := .running, startCount := task.startCount + 1 }

/-- `(rbtree_key_t)pid`. -/
def pidKey (pid : Int32) : UInt64 := pid.toInt64.toUInt64

theorem pidKey_inj {p q : Int32} : pidKey p = pidKey q ↔ p = q := by
  constructor
  · intro h
    have h64 : p.toInt64 = q.toInt64 := by
      unfold pidKey at h
      cases hp : p.toInt64
      cases hq : q.toInt64
      simp_all
    rw [← Int32.toInt_inj, ← Int32.toInt_toInt64, h64, Int32.toInt_toInt64]
  · rintro rfl
    rfl

/-- A task as `task_init` and the parser leave it: never started. -/
def Task.Fresh (task : Task) : Prop :=
  task.pid = 0 ∧ task.startCount = 0 ∧ task.status = .init

@[simp] theorem taskReset_pid (t : Task) : (taskReset t).pid = 0 := rfl

@[simp] theorem taskReset_status (t : Task) : (taskReset t).status = .finished := rfl

@[simp] theorem taskReset_startCount (t : Task) : (taskReset t).startCount = t.startCount := rfl

@[simp] theorem runnable_taskReset (t : Task) : (taskReset t).runnable = t.runnable := rfl

@[simp] theorem taskStarted_pid (p : Int32) (t : Task) : (taskStarted p t).pid = p := rfl

@[simp] theorem taskStarted_status (p : Int32) (t : Task) :
    (taskStarted p t).status = .running := rfl

@[simp] theorem taskStarted_startCount (p : Int32) (t : Task) :
    (taskStarted p t).startCount = t.startCount + 1 := rfl

@[simp] theorem runnable_taskStarted (p : Int32) (t : Task) :
    (taskStarted p t).runnable = t.runnable := rfl

end Bitzer
