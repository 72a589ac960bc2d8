import Bitzer.Context.History

/-!
# What the supervisor is for

The supervisor without the data it works on. `Supervisor` has no task records, no
pids of tasks, no tree and no context: when a child of a task is reaped, the task
is run again. What it does depends on its `Plan` alone, the tasks in their order,
which of them can be run, and the signals that are blocked.

`context.c` does exactly this, on every list of inputs, those included that one of
the two refuses: `State.abs` leaves the data out, and each function of `context.c`
is seen to be one of the plain supervisor's (`abs_next`).
-/

namespace Bitzer

open Lib

/-- What a supervisor is started with. -/
structure Plan (τ : Type) where
  tasks : List τ
  runnable : τ → Bool
  mask : Signal → Bool

/-- The children know whose they are, as the kernel does. -/
structure Supervisor (τ : Type) where
  pc : Pc τ
  quit : Bool
  terminate : Bool
  child : Bool
  mask : Signal → Bool
  pending : Signal → Bool
  children : List (Child τ)
  trace : List (Event τ)

namespace Supervisor

variable {τ : Type}

def freshPid (s : Supervisor τ) (p : Int32) : Bool :=
  decide (0 < p) && s.children.all fun c => c.pid != p

/-- The mask in force. -/
def blocked (P : Plan τ) (s : Supervisor τ) : Signal → Bool :=
  match s.pc with
  | .pselect => P.mask
  | .interrupted => P.mask
  | _ => s.mask

def alive (s : Supervisor τ) : Bool :=
  match s.pc with
  | .exited => false
  | .handlerFault => false
  | .treeFault => false
  | _ => true

/-- An attempt to run the task. -/
def run (P : Plan τ) (caller : Caller τ) (t : τ) (s : Supervisor τ) : Supervisor τ :=
  { s with
    trace := .taskRun t :: s.trace
    pc := if P.runnable t then .fork t caller else caller.pc }

def forked (caller : Caller τ) (t : τ) (p : Int32) (s : Supervisor τ) : Supervisor τ :=
  { s with
    children := ⟨p, some t, false⟩ :: s.children
    trace := .fork t (some p) :: s.trace
    pc := caller.pc }

/-- The child is gone, and its task is run again. -/
def reap [DecidableEq τ] (P : Plan τ) (c : Child τ) (s : Supervisor τ) : Supervisor τ :=
  let s := { s with
    children := s.children.erase c
    trace := .reap c.pid c.owner :: s.trace }
  match c.owner with
  | none => s
  | some t => s.run P .restartTask t

/-- After a `pselect` that a handler interrupted. -/
def afterSignal (s : Supervisor τ) : Pc τ :=
  if s.quit then .exiting 2
  else if s.terminate then .contextClose .terminate
  else .pselect

/-- One step of the process. -/
def sysStep [DecidableEq τ] (P : Plan τ) (s : Supervisor τ) (a : Answer) :
    Option (Supervisor τ) :=
  match s.pc, a with
  | .initInstance, .ok => some { s with pc := .contextCreate }
  | .initInstance, .err => some { s with pc := .postRun }
  | .contextCreate, .ok => some { s with pc := .contextInit }
  | .contextCreate, .err => some { s with pc := .postRun }
  | .contextInit, .ok => some { s with pc := .assignContext }
  | .contextInit, .err => some { s with pc := .contextClose .initFailed }
  | .assignContext, .ok => some { s with pc := .setCallback }
  | .setCallback, .ok => some { s with pc := .sigmask }
  | .sigmask, .ok =>
      some { s with mask := fun g => s.mask g || sigmask g, pc := .startTasks P.tasks }
  | .sigmask, .err => some { s with pc := .contextClose .runReturned }
  | .startTasks [], .ok => some { s with pc := .pselect }
  | .startTasks (t :: rest), .ok => some (s.run P (.startTasks rest) t)
  | .fork t caller, .pid p => if s.freshPid p then some (s.forked caller t p) else none
  | .fork t caller, .err => some { s with trace := .fork t none :: s.trace, pc := caller.pc }
  | .pselect, .err => some s
  | .interrupted, .ok =>
      if s.child then some { s with trace := .enter :: s.trace, pc := .waitpid }
      else some { s with pc := .callback }
  | .waitpid, .pid p =>
      (s.children.find? fun c => c.exited && c.pid == p).map fun c => s.reap P c
  | .waitpid, .zero =>
      if s.children ≠ [] ∧ ∀ c ∈ s.children, c.exited = false
      then some { s with pc := .callback } else none
  | .waitpid, .err => if s.children = [] then some { s with pc := .callback } else none
  | .callback, .ok => some { s with pc := s.afterSignal }
  | .contextClose _, .ok => some { s with pc := .postRun }
  | .postRun, .ok => some { s with pc := .exiting 1 }
  | .exiting _, .ok => some { s with pc := .exited }
  | _, _ => none

/-- The handler of a pending signal runs. Before the context is assigned, and after
it is freed, this is the end. -/
def deliver [DecidableEq τ] (g : Signal) (s : Supervisor τ) : Supervisor τ :=
  { s with
    quit := s.quit || decide (g = .quit)
    terminate := s.terminate || decide (g = .term ∨ g = .int)
    child := s.child || decide (g = .chld)
    pending := Function.update s.pending g false
    pc := if s.pc.assigned then (if s.pc = .pselect then .interrupted else s.pc)
      else .handlerFault }

/-- One step of the process or its environment. -/
def next [DecidableEq τ] (P : Plan τ) (s : Supervisor τ) : Input → Option (Supervisor τ)
  | .sys a => s.sysStep P a
  | .childExit p =>
      if ∃ c ∈ s.children, c.pid = p ∧ c.exited = false then
        some { s with
          children := s.children.map fun c => if c.pid = p then { c with exited := true } else c
          pending := Function.update s.pending .chld true }
      else none
  | .adopt p =>
      if s.freshPid p then some { s with children := ⟨p, none, false⟩ :: s.children } else none
  | .raise g => some { s with pending := Function.update s.pending g true }
  | .deliver g =>
      if s.alive && s.pending g && !s.blocked P g then some (s.deliver g) else none

end Supervisor

variable {τ : Type}

/-- The plan that an environment amounts to. -/
def Env.plan (E : Env τ) : Plan τ where
  tasks := E.cfg.tasks
  runnable t := (E.cfg.task t).runnable
  mask := E.mask

/-- What is left of a state without the tasks, the tree, the context and the log. -/
def State.abs (σ : State τ) : Supervisor τ where
  pc := σ.pc
  quit := σ.bzQuit
  terminate := σ.bzTerminate
  child := σ.bzChild
  mask := σ.mask
  pending := σ.pending
  children := σ.children
  trace := σ.trace

section
variable [DecidableEq τ] {E : Env τ} {σ : State τ} {t : τ} {c : Child τ} {p : Int32}
  {caller : Caller τ} {g : Signal}

/-! ## What each function is to the supervisor -/

theorem abs_taskRun (h : (σ.task t).runnable = (E.cfg.task t).runnable) :
    (taskRun caller t σ).abs = σ.abs.run E.plan caller t := by
  unfold taskRun Supervisor.run
  rw [h]
  rfl

theorem abs_contextCreate (h : (contextCreate σ).pc ≠ .treeFault) :
    (contextCreate σ).abs = { σ.abs with pc := .contextInit } := by
  unfold contextCreate at h ⊢
  split at h
  · exact absurd rfl h
  · rfl

theorem abs_taskRunForked (h : (taskRunForked E.cfg caller t p σ).pc ≠ .treeFault) :
    (taskRunForked E.cfg caller t p σ).abs = σ.abs.forked caller t p := by
  obtain ⟨mem, heq⟩ := taskRunForked_eq h
  rw [heq]
  rfl

theorem abs_contextRestartTask (h : (contextRestartTask E.cfg t σ).pc ≠ .treeFault)
    (hrun : (σ.task t).runnable = (E.cfg.task t).runnable) :
    (contextRestartTask E.cfg t σ).abs = σ.abs.run E.plan .restartTask t := by
  unfold contextRestartTask at h ⊢
  split at h
  · exact absurd rfl h
  · exact abs_taskRun hrun

/-- The tree finds whose child was reaped. -/
theorem abs_reaped (hr : Reach (next E.cfg) anyInput (init E) σ) (hpc : σ.pc = .waitpid)
    (hc : c ∈ σ.children) (h : (reaped E.cfg c σ).pc ≠ .treeFault) :
    (reaped E.cfg c σ).abs = σ.abs.reap E.plan c := by
  obtain ⟨⟨es, hi⟩, -⟩ := indexed_reach hr
  obtain ⟨ctx, hctx, -⟩ := ((ctl_reach hr).running (by rw [hpc]; rfl)).ctx
  rw [hi.reaped_eq (by rw [hctx]; rfl) hc] at h ⊢
  unfold Supervisor.reap
  cases ho : c.owner with
  | none => rfl
  | some t =>
      rw [ho] at h
      exact abs_contextRestartTask h (sameConf_reach hr t).runnable

/-- The callback is set in the loop. -/
theorem callbackPc_eq (hr : Reach (next E.cfg) anyInput (init E) σ) (hpc : σ.pc = .callback) :
    ∃ ctx, σ.ctx = some ctx ∧ callbackPc ctx σ = σ.abs.afterSignal := by
  obtain ⟨ctx, hctx, -, hcb, -⟩ := ((ctl_reach hr).running (by rw [hpc]; rfl)).ctx
  refine ⟨ctx, hctx, ?_⟩
  rw [callbackPc, if_pos hcb]
  rfl

theorem blocked_abs (hr : Reach (next E.cfg) anyInput (init E) σ) :
    σ.abs.blocked E.plan = σ.blocked := by
  have hctl := ctl_reach hr
  unfold Supervisor.blocked State.blocked
  show (match σ.pc with | .pselect => E.mask | .interrupted => E.mask | _ => σ.mask) = _
  cases hpc : σ.pc with
  | pselect | interrupted =>
      obtain ⟨ctx, hctx, -, -, hmask⟩ := (hctl.running (by rw [hpc]; rfl)).ctx
      rw [hctx]
      exact hmask.symm
  | _ => rfl

theorem abs_deliver (hr : Reach (next E.cfg) anyInput (init E) σ) (halive : σ.alive = true) :
    (deliver g σ).abs = σ.abs.deliver g := by
  have hlive : σ.contextLive = σ.pc.assigned :=
    Bool.eq_iff_iff.mpr (contextLive_iff (ctl_reach hr) halive)
  unfold State.abs Supervisor.deliver
  simp only [deliver_pc, deliver_mask, deliver_pending, deliver_children, deliver_trace,
    deliver_bzQuit, deliver_bzTerminate, deliver_bzChild, hlive]

/-! ## Every step, and every run -/

theorem abs_sysStep (hr : Reach (next E.cfg) anyInput (init E) σ) (a : Answer) :
    (sysStep E.cfg σ a).map State.abs = σ.abs.sysStep E.plan a := by
  have hctl := ctl_reach hr
  have hfault : ∀ {σ'}, sysStep E.cfg σ a = some σ' → σ'.pc ≠ .treeFault := fun hn =>
    not_treeFault (hr.step (i := .sys a) trivial hn)
  have habs : σ.abs.pc = σ.pc := rfl
  cases hpc : σ.pc with
  | initInstance | assignContext | contextClose | postRun | exiting | exited | handlerFault
  | treeFault =>
      -- the context, if there is one, does not matter here
      cases a <;> simp [sysStep, Supervisor.sysStep, hpc, habs] <;> rfl
  | contextCreate =>
      cases a with
      | ok =>
          have hn : sysStep E.cfg σ .ok = some (contextCreate σ) := by simp [sysStep, hpc]
          rw [hn, Option.map_some, abs_contextCreate (hfault hn)]
          simp [Supervisor.sysStep, hpc, habs]
      | err =>
          simp [sysStep, Supervisor.sysStep, hpc, habs]
          rfl
      | zero | pid => simp [sysStep, Supervisor.sysStep, hpc, habs]
  | contextInit =>
      simp only [Ctl, hpc] at hctl
      obtain ⟨⟨ctx, hctx⟩, -⟩ := hctl
      cases a <;> simp [sysStep, Supervisor.sysStep, hpc, habs, hctx] <;> rfl
  | setCallback =>
      simp only [Ctl, hpc] at hctl
      obtain ⟨⟨ctx, hctx, -⟩, -⟩ := hctl
      cases a with
      | ok =>
          simp [sysStep, Supervisor.sysStep, hpc, habs, hctx]
          rfl
      | err | zero | pid => simp [sysStep, Supervisor.sysStep, hpc, habs]
  | sigmask =>
      simp only [Ctl, hpc] at hctl
      obtain ⟨⟨ctx, hctx, hconf, -⟩, -⟩ := hctl
      cases a with
      | ok =>
          simp [sysStep, Supervisor.sysStep, hpc, habs, hctx, contextSigmask, hconf]
          rfl
      | err =>
          simp [sysStep, Supervisor.sysStep, hpc, habs, hctx]
          rfl
      | zero | pid => simp [sysStep, Supervisor.sysStep, hpc, habs, hctx]
  | startTasks rest =>
      cases rest with
      | nil =>
          cases a with
          | ok =>
              simp [sysStep, Supervisor.sysStep, hpc, habs]
              rfl
          | err | zero | pid => simp [sysStep, Supervisor.sysStep, hpc, habs]
      | cons t rest =>
          cases a with
          | ok =>
              simp only [sysStep, Supervisor.sysStep, hpc, habs, Option.map_some,
                abs_taskRun (sameConf_reach hr t).runnable]
          | err | zero | pid => simp [sysStep, Supervisor.sysStep, hpc, habs]
  | fork t caller =>
      cases a with
      | pid p =>
          cases hfresh : σ.freshPid p with
          | false =>
              have hfresh' : σ.abs.freshPid p = false := hfresh
              simp [sysStep, Supervisor.sysStep, hpc, habs, hfresh, hfresh']
          | true =>
              have hfresh' : σ.abs.freshPid p = true := hfresh
              have hn : sysStep E.cfg σ (.pid p) = some (taskRunForked E.cfg caller t p σ) := by
                simp [sysStep, hpc, hfresh]
              rw [hn, Option.map_some, abs_taskRunForked (hfault hn)]
              simp [Supervisor.sysStep, hpc, habs, hfresh']
      | err =>
          simp [sysStep, Supervisor.sysStep, hpc, habs]
          rfl
      | ok | zero => simp [sysStep, Supervisor.sysStep, hpc, habs]
  | pselect =>
      cases a with
      | err => simp [sysStep, Supervisor.sysStep, hpc, State.abs]
      | ok | zero | pid => simp [sysStep, Supervisor.sysStep, hpc, habs]
  | interrupted =>
      cases a with
      | ok =>
          simp only [sysStep, Supervisor.sysStep, hpc, habs, apply_ite (Option.map State.abs)]
          rfl
      | err | zero | pid => simp [sysStep, Supervisor.sysStep, hpc, habs]
  | waitpid =>
      cases a with
      | pid p =>
          cases hc : σ.children.find? fun c => c.exited && c.pid == p with
          | none =>
              have hc' : (σ.abs.children.find? fun c => c.exited && c.pid == p) = none := hc
              simp [sysStep, Supervisor.sysStep, hpc, habs, hc, hc']
          | some c =>
              have hc' : (σ.abs.children.find? fun c => c.exited && c.pid == p) = some c := hc
              have hn : sysStep E.cfg σ (.pid p) = some (reaped E.cfg c σ) := by
                simp [sysStep, hpc, hc]
              rw [hn, Option.map_some, abs_reaped hr hpc (List.mem_of_find?_eq_some hc) (hfault hn)]
              simp [Supervisor.sysStep, hpc, habs, hc']
      | zero | err =>
          simp only [sysStep, Supervisor.sysStep, hpc, habs, apply_ite (Option.map State.abs)]
          rfl
      | ok => simp [sysStep, Supervisor.sysStep, hpc, habs]
  | callback =>
      obtain ⟨ctx, hctx, hcb⟩ := callbackPc_eq hr hpc
      cases a with
      | ok =>
          simp only [sysStep, Supervisor.sysStep, hpc, habs, hctx, hcb, Option.map_some]
          rfl
      | err | zero | pid => simp [sysStep, Supervisor.sysStep, hpc, habs, hctx]

theorem abs_next (hr : Reach (next E.cfg) anyInput (init E) σ) (i : Input) :
    (next E.cfg σ i).map State.abs = Supervisor.next E.plan σ.abs i := by
  cases i with
  | sys a => exact abs_sysStep hr a
  | childExit p | adopt p =>
      show Option.map _ (if _ then _ else _) = if _ then _ else _
      rw [Option.map_if]
      rfl
  | raise g => rfl
  | deliver g =>
      show Option.map _ (if _ then _ else _) = if _ then _ else _
      rw [Option.map_if, blocked_abs hr]
      by_cases halive : σ.alive = true
      · rw [abs_deliver hr halive]
        rfl
      · have hdead : σ.abs.alive = false := Bool.eq_false_iff.mpr halive
        rw [if_neg (by simp [halive]), if_neg (by simp [hdead])]

/-- **What `context.c` is for.** Whatever the inputs are, and whether they are refused or
not, the supervisor with its tasks, its tree and its context does what the plain one
does. -/
theorem supervisor_refines (E : Env τ) (is : List Input) :
    (runFrom (next E.cfg) (init E) is).map State.abs =
      runFrom (Supervisor.next E.plan) (init E).abs is :=
  runFrom_map (fun _ _ hr => abs_next hr _) is

end

end Bitzer
