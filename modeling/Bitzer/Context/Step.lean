import Bitzer.Context.State
import Bitzer.Lib.Machine

/-!
# What the supervisor does

`context.c` and the parts of `main.c` around it, cut at the system calls: each
function below runs up to the next one. `next` is one step of the process or of
its environment; `none` means that the kernel gives no such answer, or that the
event cannot happen, in that state. `step_of_next` lists all the steps.

Assumed of the kernel: `fork` returns -1 or a positive pid that no unreaped
child has; `waitpid(-1, .., WNOHANG)` returns an exited child, 0 only if there
is none and a failure only if there are no children at all; a child's exit
makes `SIGCHLD` pending.
-/

namespace Bitzer

open Lib

variable {τ : Type}

/-- `rbtree_entry(node, task_t, node)`. -/
def rbtreeEntry : Ptr (NodeAddr τ) → Option τ
  | .ref (.task t) => some t
  | _ => none

/-- The pid of no unreaped child. -/
def State.freshPid (σ : State τ) (p : Int32) : Bool :=
  decide (0 < p) && σ.children.all fun c => c.pid != p

theorem freshPid_iff {σ : State τ} {p : Int32} :
    σ.freshPid p = true ↔ 0 < p ∧ ∀ c ∈ σ.children, c.pid ≠ p := by
  simp [State.freshPid]

variable [DecidableEq τ]

/-- The loop of `context_find_task`. -/
def contextFindTask (k : UInt64) : Nat → Ptr (NodeAddr τ) → Prog (Mem (NodeAddr τ)) (Option τ)
  | 0, _ => fun _ => none
  | fuel + 1, node => do
      if node ≠ (← sentinel) then
        if k < (← key node) then
          contextFindTask k fuel (← child .left node)
        else if k > (← key node) then
          contextFindTask k fuel (← child .right node)
        else
          return rbtreeEntry node
      else
        return none

/-- More iterations than any tree operation takes on the listed tasks. -/
def Config.fuel (cfg : Config τ) : Nat := 2 * cfg.tasks.length + 2

/-- `context_find_task`. -/
def State.find (cfg : Config τ) (σ : State τ) (pid : Int32) : Option (Option τ) :=
  ((contextFindTask (pidKey pid) cfg.fuel σ.mem.tree.root).run σ.mem).map Prod.fst

/-- `task_run` up to its `fork`. -/
def taskRun (caller : Caller τ) (t : τ) (σ : State τ) : State τ :=
  { σ with
    task := Function.update σ.task t (taskReset (σ.task t))
    trace := .taskRun t :: σ.trace
    pc := if (σ.task t).runnable then .fork t caller else caller.pc }

/-- `task_run` from its `fork` on, and its caller's `rbtree_insert`. -/
def taskRunForked (cfg : Config τ) (caller : Caller τ) (t : τ) (pid : Int32) (σ : State τ) :
    State τ :=
  let insert : Prog (Mem (NodeAddr τ)) Unit := do
    setKey (.ref (.task t)) (pidKey pid)
    rbtreeInsert cfg.fuel (.ref (.task t))
  match insert.run σ.mem with
  | none => { σ with pc := .treeFault }
  | some (_, mem) =>
      { σ with
        mem := mem
        task := Function.update σ.task t (taskStarted pid (σ.task t))
        children := ⟨pid, some t, false⟩ :: σ.children
        trace := .fork t (some pid) :: σ.trace
        pc := caller.pc }

/-- `task_run` where `fork` failed. -/
def taskRunFailed (caller : Caller τ) (t : τ) (σ : State τ) : State τ :=
  { σ with
    trace := .fork t none :: σ.trace
    pc := caller.pc }

/-- `context_restart_task`. -/
def contextRestartTask (cfg : Config τ) (t : τ) (σ : State τ) : State τ :=
  match (rbtreeDelete cfg.fuel (.ref (.task t))).run σ.mem with
  | none => { σ with pc := .treeFault }
  | some (_, mem) => taskRun .restartTask t { σ with mem := mem }

/-- The body of `context_event_handler`'s loop where `waitpid` returned the
child `c`. -/
def reaped (cfg : Config τ) (c : Child τ) (σ : State τ) : State τ :=
  let σ := { σ with
    children := σ.children.erase c
    trace := .reap c.pid c.owner :: σ.trace }
  match σ.find cfg c.pid with
  | none => { σ with pc := .treeFault }
  | some none => σ
  | some (some t) => contextRestartTask cfg t σ

/-- `context_create`. -/
def contextCreate (σ : State τ) : State τ :=
  match (rbtreeInit (.ref .sentinel)).run σ.mem with
  | none => { σ with pc := .treeFault }
  | some (_, mem) =>
      { σ with
        mem := mem
        ctx := some ⟨none, false, fun _ => false⟩
        pc := .contextInit }

/-- The signals that `context_sigmask` blocks. -/
def sigmask : Signal → Bool
  | .chld => true
  | .int => true
  | .quit => true
  | .term => true
  | .hup => true
  | .usr1 => true
  | .ttin => false
  | .ttou => false

/-- `context_sigmask`. -/
def contextSigmask (ctx : Context τ) (σ : State τ) : State τ :=
  { σ with
    ctx := some { ctx with origmask := σ.mask }
    mask := fun s => σ.mask s || sigmask s
    pc := .startTasks (ctx.conf.getD []) }

/-- `context_run` at the callback, which is `bz_signal_callback` once it is
set. -/
def callbackPc (ctx : Context τ) (σ : State τ) : Pc τ :=
  if ctx.callback then
    if σ.bzQuit then .exiting 2
    else if σ.bzTerminate then .contextClose .terminate
    else .pselect
  else .pselect

/-- What the kernel answers to a system call. -/
inductive Answer where
  | ok
  | err
  | zero
  | pid (p : Int32)
  deriving DecidableEq

inductive Input where
  /-- The process goes on to its next system call. -/
  | sys (a : Answer)
  /-- A running child exits. -/
  | childExit (p : Int32)
  /-- The process becomes the parent of an orphan. -/
  | adopt (p : Int32)
  | raise (s : Signal)
  /-- A pending signal's handler runs. -/
  | deliver (s : Signal)
  deriving DecidableEq

/-- The process runs, not its environment. -/
def Input.isSys : Input → Bool
  | .sys _ => true
  | _ => false

/-- One step of the process. -/
def sysStep (cfg : Config τ) (σ : State τ) (a : Answer) : Option (State τ) :=
  match σ.pc, σ.ctx, a with
  | .initInstance, _, .ok => some { σ with pc := .contextCreate }
  | .initInstance, _, .err => some { σ with pc := .postRun }
  | .contextCreate, _, .ok => some (contextCreate σ)
  | .contextCreate, _, .err => some { σ with pc := .postRun }
  | .contextInit, some ctx, .ok =>
      some { σ with ctx := some { ctx with conf := some cfg.tasks }, pc := .assignContext }
  | .contextInit, _, .err => some { σ with pc := .contextClose .initFailed }
  | .assignContext, _, .ok => some { σ with context := true, pc := .setCallback }
  | .setCallback, some ctx, .ok =>
      some { σ with ctx := some { ctx with callback := true }, pc := .sigmask }
  | .sigmask, some ctx, .ok => some (contextSigmask ctx σ)
  | .sigmask, _, .err => some { σ with pc := .contextClose .runReturned }
  | .startTasks [], _, .ok => some { σ with pc := .pselect }
  | .startTasks (t :: rest), _, .ok => some (taskRun (.startTasks rest) t σ)
  | .fork t caller, _, .pid p =>
      if σ.freshPid p then some (taskRunForked cfg caller t p σ) else none
  | .fork t caller, _, .err => some (taskRunFailed caller t σ)
  | .pselect, _, .err => some { σ with pc := .pselect }
  | .interrupted, _, .ok =>
      if σ.bzChild then some { σ with trace := .enter :: σ.trace, pc := .waitpid }
      else some { σ with pc := .callback }
  | .waitpid, _, .pid p =>
      (σ.children.find? fun c => c.exited && c.pid == p).map fun c => reaped cfg c σ
  | .waitpid, _, .zero =>
      if σ.children ≠ [] ∧ ∀ c ∈ σ.children, c.exited = false
      then some { σ with pc := .callback } else none
  | .waitpid, _, .err => if σ.children = [] then some { σ with pc := .callback } else none
  | .callback, some ctx, .ok => some { σ with pc := callbackPc ctx σ }
  | .contextClose _, _, .ok => some { σ with ctx := none, pc := .postRun }
  | .postRun, _, .ok => some { σ with logOpen := false, pc := .exiting 1 }
  | .exiting _, _, .ok => some { σ with pc := .exited }
  | _, _, _ => none

/-- One step of the process or its environment. -/
def next (cfg : Config τ) (σ : State τ) : Input → Option (State τ)
  | .sys a => sysStep cfg σ a
  | .childExit p =>
      if ∃ c ∈ σ.children, c.pid = p ∧ c.exited = false then
        some { σ with
          children := σ.children.map fun c => if c.pid = p then { c with exited := true } else c
          pending := Function.update σ.pending .chld true }
      else none
  | .adopt p =>
      if σ.freshPid p then some { σ with children := ⟨p, none, false⟩ :: σ.children } else none
  | .raise s => some { σ with pending := Function.update σ.pending s true }
  | .deliver s =>
      if σ.alive && σ.pending s && !σ.blocked s then some (deliver s σ) else none

/-- The steps of the process that only move its program counter. -/
inductive Goto (σ : State τ) : Answer → Pc τ → Prop
  | pidfile : σ.pc = .initInstance → Goto σ .ok .contextCreate
  | pidfileFailed : σ.pc = .initInstance → Goto σ .err .postRun
  | createFailed : σ.pc = .contextCreate → Goto σ .err .postRun
  | initFailed : σ.pc = .contextInit → Goto σ .err (.contextClose .initFailed)
  | maskFailed : σ.pc = .sigmask → Goto σ .err (.contextClose .runReturned)
  | started : σ.pc = .startTasks [] → Goto σ .ok .pselect
  | unexpected : σ.pc = .pselect → Goto σ .err .pselect
  | noChild : σ.pc = .interrupted → σ.bzChild = false → Goto σ .ok .callback
  | drained : σ.pc = .waitpid → (∀ c ∈ σ.children, c.exited = false) → Goto σ .zero .callback
  | childless : σ.pc = .waitpid → σ.children = [] → Goto σ .err .callback
  | callback {ctx : Context τ} : σ.pc = .callback → σ.ctx = some ctx →
      Goto σ .ok (callbackPc ctx σ)
  | exit {status : Nat} : σ.pc = .exiting status → Goto σ .ok .exited

/-- All the steps there are. -/
inductive Step (cfg : Config τ) (σ : State τ) : Input → State τ → Prop
  | goto {a : Answer} {pc : Pc τ} : Goto σ a pc → Step cfg σ (.sys a) { σ with pc := pc }
  | create : σ.pc = .contextCreate → Step cfg σ (.sys .ok) (contextCreate σ)
  | load {ctx : Context τ} : σ.pc = .contextInit → σ.ctx = some ctx →
      Step cfg σ (.sys .ok)
        { σ with ctx := some { ctx with conf := some cfg.tasks }, pc := .assignContext }
  | assign : σ.pc = .assignContext →
      Step cfg σ (.sys .ok) { σ with context := true, pc := .setCallback }
  | setCallback {ctx : Context τ} : σ.pc = .setCallback → σ.ctx = some ctx →
      Step cfg σ (.sys .ok) { σ with ctx := some { ctx with callback := true }, pc := .sigmask }
  | mask {ctx : Context τ} : σ.pc = .sigmask → σ.ctx = some ctx →
      Step cfg σ (.sys .ok) (contextSigmask ctx σ)
  | start {t : τ} {rest : List τ} : σ.pc = .startTasks (t :: rest) →
      Step cfg σ (.sys .ok) (taskRun (.startTasks rest) t σ)
  | forked {t : τ} {caller : Caller τ} {p : Int32} : σ.pc = .fork t caller → 0 < p →
      (∀ c ∈ σ.children, c.pid ≠ p) →
      Step cfg σ (.sys (.pid p)) (taskRunForked cfg caller t p σ)
  | forkFailed {t : τ} {caller : Caller τ} : σ.pc = .fork t caller →
      Step cfg σ (.sys .err) (taskRunFailed caller t σ)
  | enter : σ.pc = .interrupted → σ.bzChild = true →
      Step cfg σ (.sys .ok) { σ with trace := .enter :: σ.trace, pc := .waitpid }
  | reap {c : Child τ} : σ.pc = .waitpid → c ∈ σ.children → c.exited = true →
      Step cfg σ (.sys (.pid c.pid)) (reaped cfg c σ)
  | close {site : CloseSite} : σ.pc = .contextClose site →
      Step cfg σ (.sys .ok) { σ with ctx := none, pc := .postRun }
  | post : σ.pc = .postRun →
      Step cfg σ (.sys .ok) { σ with logOpen := false, pc := .exiting 1 }
  | childExit {c : Child τ} : c ∈ σ.children → c.exited = false →
      Step cfg σ (.childExit c.pid) { σ with
        children := σ.children.map fun d => if d.pid = c.pid then { d with exited := true } else d
        pending := Function.update σ.pending .chld true }
  | adopt {p : Int32} : 0 < p → (∀ c ∈ σ.children, c.pid ≠ p) →
      Step cfg σ (.adopt p) { σ with children := ⟨p, none, false⟩ :: σ.children }
  | raise {s : Signal} :
      Step cfg σ (.raise s) { σ with pending := Function.update σ.pending s true }
  | deliver {s : Signal} : σ.alive = true → σ.pending s = true → σ.blocked s = false →
      Step cfg σ (.deliver s) (deliver s σ)

theorem step_of_sysStep {cfg : Config τ} {σ σ' : State τ} {a : Answer}
    (h : sysStep cfg σ a = some σ') : Step cfg σ (.sys a) σ' := by
  unfold sysStep at h
  split at h
  · cases h
    exact .goto (.pidfile ‹_›)
  · cases h
    exact .goto (.pidfileFailed ‹_›)
  · cases h
    exact .create ‹_›
  · cases h
    exact .goto (.createFailed ‹_›)
  · cases h
    exact .load ‹_› ‹_›
  · cases h
    exact .goto (.initFailed ‹_›)
  · cases h
    exact .assign ‹_›
  · cases h
    exact .setCallback ‹_› ‹_›
  · cases h
    exact .mask ‹_› ‹_›
  · cases h
    exact .goto (.maskFailed ‹_›)
  · cases h
    exact .goto (.started ‹_›)
  · cases h
    exact .start ‹_›
  · split at h
    · rename_i hp
      obtain ⟨hp, hc⟩ := freshPid_iff.mp hp
      cases h
      exact .forked ‹_› hp hc
    · cases h
  · cases h
    exact .forkFailed ‹_›
  · cases h
    exact .goto (.unexpected ‹_›)
  · split at h
    · cases h
      exact .enter ‹_› ‹_›
    · cases h
      exact .goto (.noChild ‹_› (Bool.eq_false_iff.mpr ‹_›))
  · obtain ⟨c, hc, rfl⟩ := Option.map_eq_some_iff.mp h
    have hmem := List.mem_of_find?_eq_some hc
    have hp := List.find?_some hc
    simp only [Bool.and_eq_true, beq_iff_eq] at hp
    obtain ⟨he, rfl⟩ := hp
    exact .reap ‹_› hmem he
  · split at h
    · rename_i hc
      cases h
      exact .goto (.drained ‹_› hc.2)
    · cases h
  · split at h
    · cases h
      exact .goto (.childless ‹_› ‹_›)
    · cases h
  · cases h
    exact .goto (.callback ‹_› ‹_›)
  · cases h
    exact .close ‹_›
  · cases h
    exact .post ‹_›
  · cases h
    exact .goto (.exit ‹_›)
  · cases h

theorem step_of_next {cfg : Config τ} {σ σ' : State τ} {i : Input}
    (h : next cfg σ i = some σ') : Step cfg σ i σ' := by
  cases i with
  | sys a => exact step_of_sysStep h
  | childExit p =>
      simp only [next] at h
      split at h
      · rename_i hc
        obtain ⟨c, hc, rfl, he⟩ := hc
        cases h
        exact .childExit hc he
      · cases h
  | adopt p =>
      simp only [next] at h
      split at h
      · rename_i hp
        obtain ⟨hp, hc⟩ := freshPid_iff.mp hp
        cases h
        exact .adopt hp hc
      · cases h
  | raise s =>
      cases h
      exact .raise
  | deliver s =>
      simp only [next] at h
      split at h
      · rename_i hd
        simp only [Bool.and_eq_true, Bool.not_eq_true'] at hd
        cases h
        exact .deliver hd.1.1 hd.1.2 hd.2
      · cases h

end Bitzer
