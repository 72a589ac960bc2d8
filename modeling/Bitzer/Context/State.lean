import Bitzer.Rbtree.Holds
import Bitzer.Task

/-!
# The state of the supervisor

The process from the end of `signal_init` to its exit, together with the part
of the kernel it talks to: its blocked and pending signals and its children
that have not been reaped. `τ` is the type of task addresses.

`Pc` has one place for every system call, and before the signal mask is
installed one for every statement, since there a handler may run in between.
-/

namespace Bitzer

open Lib

/-- The signals whose handler is `signal_handler`. -/
inductive Signal where
  | quit
  | term
  | hup
  | usr1
  | int
  | chld
  | ttin
  | ttou
  deriving DecidableEq, Repr

/-- Tree nodes: `context_t`'s sentinel and the one in each task. -/
inductive NodeAddr (τ : Type) where
  | sentinel
  | task (t : τ)
  deriving DecidableEq

/-- A child that has not been reaped. `owner` is the task whose `task_run` forked
it, if any; `exited` tells that it waits to be reaped. -/
structure Child (τ : Type) where
  pid : Int32
  owner : Option τ
  exited : Bool
  deriving DecidableEq

/-- The loop that called `task_run`. -/
inductive Caller (τ : Type) where
  | startTasks (rest : List τ)
  | restartTask
  deriving DecidableEq

/-- The call of `context_close`: two in `bz_run`, one in `bz_signal_callback`. -/
inductive CloseSite where
  | initFailed
  | runReturned
  | terminate
  deriving DecidableEq

inductive Pc (τ : Type) where
  /-- `bz_init_instance` after `signal_init`. -/
  | initInstance
  | contextCreate
  | contextInit
  /-- `bz_run` at `context = ctx`. -/
  | assignContext
  | setCallback
  | sigmask
  /-- The loop of `context_start_tasks`. -/
  | startTasks (rest : List τ)
  /-- `task_run` at its `fork`. -/
  | fork (t : τ) (caller : Caller τ)
  | pselect
  /-- A handler ran in `pselect`, which returns `EINTR`. -/
  | interrupted
  /-- The loop of `context_event_handler`. -/
  | waitpid
  /-- `context_run` at `signal_task.callback`. -/
  | callback
  | contextClose (site : CloseSite)
  | postRun
  /-- Inside `exit(status)`. -/
  | exiting (status : Nat)
  | exited
  /-- The handler read through an invalid `context`. -/
  | handlerFault
  /-- A tree operation followed an invalid link. -/
  | treeFault
  deriving DecidableEq

/-- Where `task_run` returns to. -/
def Caller.pc {τ : Type} : Caller τ → Pc τ
  | .startTasks rest => .startTasks rest
  | .restartTask => .waitpid

/-- `struct context_s`; its tree is in `State.mem`. `conf` is `NULL` until
`context_init`. -/
structure Context (τ : Type) where
  conf : Option (List τ)
  callback : Bool
  origmask : Signal → Bool

/-- What the run has done, for statements about its history. -/
inductive Event (τ : Type) where
  /-- `task_run` was called. -/
  | taskRun (t : τ)
  /-- `fork` in `task_run` returned a pid, or -1. -/
  | fork (t : τ) (answer : Option Int32)
  /-- `context_event_handler` entered its `waitpid` loop. -/
  | enter
  /-- `waitpid` returned the child. -/
  | reap (pid : Int32) (owner : Option τ)
  deriving DecidableEq

structure State (τ : Type) where
  pc : Pc τ
  task : τ → Task
  mem : Mem (NodeAddr τ)
  /-- The allocated context, if any. -/
  ctx : Option (Context τ)
  /-- The global `context` points to it; otherwise it is `NULL`. -/
  context : Bool
  logOpen : Bool
  bzQuit : Bool
  bzTerminate : Bool
  bzReconfigure : Bool
  bzReopen : Bool
  bzChild : Bool
  mask : Signal → Bool
  pending : Signal → Bool
  children : List (Child τ)
  /-- The events so far, the last one first. -/
  trace : List (Event τ)

/-- A parsed configuration: `tasks_list` and the tasks on it. -/
structure Config (τ : Type) where
  tasks : List τ
  task : τ → Task
  nodup : tasks.Nodup
  fresh : ∀ t ∈ tasks, (task t).Fresh

/-- What the process finds at the end of `signal_init`: its configuration file,
the inherited mask, signals and children. -/
structure Env (τ : Type) where
  cfg : Config τ
  mask : Signal → Bool
  pending : Signal → Bool
  children : List (Child τ)
  pid_nodup : (children.map Child.pid).Nodup
  pid_pos : ∀ c ∈ children, 0 < c.pid
  foreign : ∀ c ∈ children, c.owner = none

variable {τ : Type}

/-- A single task `s` at `/s`, started from a shell: nothing is blocked, pending
or inherited. -/
def oneTask : Env Nat where
  cfg :=
    { tasks := [0]
      task := fun _ => { taskInit with name := some [115], path := some [47, 115] }
      nodup := by decide
      fresh := fun _ _ => ⟨rfl, rfl, rfl⟩ }
  mask := fun _ => false
  pending := fun _ => false
  children := []
  pid_nodup := by decide
  pid_pos := by simp
  foreign := by simp

/-- The state at the end of `signal_init`. -/
def init (E : Env τ) : State τ where
  pc := .initInstance
  task := E.cfg.task
  mem := ⟨fun _ => some {}, ⟨.null, .null⟩⟩
  ctx := none
  context := false
  logOpen := true
  bzQuit := false
  bzTerminate := false
  bzReconfigure := false
  bzReopen := false
  bzChild := false
  mask := E.mask
  pending := E.pending
  children := E.children
  trace := []

/-- The mask in force: `pselect` swaps in the one that `context_sigmask` saved. -/
def State.blocked (σ : State τ) : Signal → Bool :=
  match σ.pc, σ.ctx with
  | .pselect, some ctx => ctx.origmask
  | .interrupted, some ctx => ctx.origmask
  | _, _ => σ.mask

/-- What `signal_handler` needs of the global context: it is not `NULL`, not
freed, and its log is open. -/
def State.contextLive (σ : State τ) : Bool := σ.context && σ.ctx.isSome && σ.logOpen

/-- The process has not ended. -/
def State.alive (σ : State τ) : Bool :=
  match σ.pc with
  | .exited => false
  | .handlerFault => false
  | .treeFault => false
  | _ => true

/-- The switch of `signal_handler`. -/
def recordSignal (s : Signal) (σ : State τ) : State τ :=
  match s with
  | .quit => { σ with bzQuit := true }
  | .term => { σ with bzTerminate := true }
  | .int => { σ with bzTerminate := true }
  | .hup => { σ with bzReconfigure := true }
  | .usr1 => { σ with bzReopen := true }
  | .chld => { σ with bzChild := true }
  | .ttin => σ
  | .ttou => σ

/-- `signal_handler`: the flag, then the record in the context's log. -/
def signalHandler (s : Signal) (σ : State τ) : State τ :=
  { recordSignal s σ with pc := if σ.contextLive then σ.pc else .handlerFault }

variable [DecidableEq τ]

/-- A pending signal's handler runs; a `pselect` returns after it. -/
def deliver (s : Signal) (σ : State τ) : State τ :=
  signalHandler s { σ with
    pending := Function.update σ.pending s false
    pc := if σ.pc = .pselect then .interrupted else σ.pc }

/-! A delivery writes the pending set, a flag and the program counter. -/

section
variable (s : Signal) (σ : State τ)

theorem deliver_pc : (deliver s σ).pc =
    if σ.contextLive then (if σ.pc = .pselect then .interrupted else σ.pc)
    else .handlerFault := rfl

@[simp] theorem deliver_task : (deliver s σ).task = σ.task := by
  cases s <;> rfl

@[simp] theorem deliver_mem : (deliver s σ).mem = σ.mem := by
  cases s <;> rfl

@[simp] theorem deliver_ctx : (deliver s σ).ctx = σ.ctx := by
  cases s <;> rfl

@[simp] theorem deliver_context : (deliver s σ).context = σ.context := by
  cases s <;> rfl

@[simp] theorem deliver_logOpen : (deliver s σ).logOpen = σ.logOpen := by
  cases s <;> rfl

@[simp] theorem deliver_mask : (deliver s σ).mask = σ.mask := by
  cases s <;> rfl

@[simp] theorem deliver_pending :
    (deliver s σ).pending = Function.update σ.pending s false := by
  cases s <;> rfl

@[simp] theorem deliver_children : (deliver s σ).children = σ.children := by
  cases s <;> rfl

@[simp] theorem deliver_trace : (deliver s σ).trace = σ.trace := by
  cases s <;> rfl

@[simp] theorem deliver_bzQuit : (deliver s σ).bzQuit = (σ.bzQuit || decide (s = .quit)) := by
  cases s <;> simp [deliver, signalHandler, recordSignal]

@[simp] theorem deliver_bzTerminate :
    (deliver s σ).bzTerminate = (σ.bzTerminate || decide (s = .term ∨ s = .int)) := by
  cases s <;> simp [deliver, signalHandler, recordSignal]

@[simp] theorem deliver_bzChild : (deliver s σ).bzChild = (σ.bzChild || decide (s = .chld)) := by
  cases s <;> simp [deliver, signalHandler, recordSignal]

end

end Bitzer
