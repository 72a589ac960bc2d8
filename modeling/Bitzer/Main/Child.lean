import Bitzer.Conf.Scan
import Bitzer.Main.Whole

/-!
# The child of `task_run`

`task_redirect_io`, `task_pre_run` and `execv`, on the copy of the process that
`fork` makes. As in `Instance`, the kernel answers every call that can fail.
-/

namespace Bitzer

open Lib

/-- The calls of the child that can fail. -/
inductive ChildCall where
  | malloc
  | openLog
  | dup2 (fd : Nat)
  | chdir
  | setenv (name : Str)
  | sigprocmask
  deriving DecidableEq, Repr

/-- The child, and the member of its task that it changes. -/
structure ChildProc where
  logPath : Option Str
  fds : Fds OpenFile
  /-- The argument of `chdir`, once it has been called. -/
  dir : Option Str
  environ : Str → Option Str
  mask : Signo → Bool
  disposition : Signo → Disposition

/-- The file of a task's output. -/
def taskLogPath (prefixDir name : Str) : Str :=
  prefixDir ++ bytes ['/', 'l', 'o', 'g', '/'] ++ name ++ bytes ['.', 'l', 'o', 'g']

/-- `task_redirect_io`, and whether it returns `OK`. -/
def taskRedirectIo (ok : ChildCall → Bool) (prefixDir name : Str) (c : ChildProc) :
    Bool × ChildProc :=
  if c.logPath.isSome || ok .malloc then
    let path := c.logPath.getD (taskLogPath prefixDir name)
    let c := { c with logPath := some path }
    if ok .openLog then
      let r := c.fds.redirect (fun i => ok (.dup2 i)) (.file path)
      (r.1, { c with fds := r.2 })
    else (false, c)
  else (false, c)

/-- `setenv`. -/
def ChildProc.setenv (name value : Str) (c : ChildProc) : ChildProc :=
  { c with environ := Function.update c.environ name (some value) }

/-- `"PWD"`. -/
def pwd : Str := bytes ['P', 'W', 'D']

/-- `"_"`. -/
def underscore : Str := bytes ['_']

/-- The two steps of `task_pre_run` for a task with a directory. -/
def taskChdir (ok : ChildCall → Bool) (dir : Option Str) (c : ChildProc) : Option ChildProc :=
  match dir with
  | none => some c
  | some dir =>
      if ok .chdir && ok (.setenv pwd) then some ({ c with dir := some dir }.setenv pwd dir)
      else none

/-- `task_pre_run`; `none` is `ERROR`. -/
def taskPreRun (ok : ChildCall → Bool) (prefixDir : Str) (origmask : Signo → Bool) (task : Task)
    (c : ChildProc) : Option ChildProc :=
  -- what `task_redirect_io` returns is not looked at
  let c := (taskRedirectIo ok prefixDir (task.name.getD []) c).2
  (taskChdir ok task.dir c).bind fun c =>
    if ok (.setenv underscore) && ok .sigprocmask then
      some { c.setenv underscore (task.path.getD []) with mask := origmask }
    else none

/-- What a program finds: `execv` keeps the descriptors, the mask and the
ignored signals, and resets the handlers. -/
structure Program where
  path : Str
  argv : StrArray
  fds : Fds OpenFile
  dir : Option Str
  environ : Str → Option Str
  mask : Signo → Bool
  disposition : Signo → Disposition

/-- What `exec` does to a disposition. -/
def Disposition.exec : Disposition → Disposition
  | .handler => .default
  | d => d

/-- `execv(task->path, task->args)`, where it succeeds. -/
def execv (task : Task) (c : ChildProc) : Program where
  path := task.path.getD []
  argv := task.args
  fds := c.fds
  dir := c.dir
  environ := c.environ
  mask := c.mask
  disposition s := (c.disposition s).exec

/-- What `fork` copies. No parent runs `task_redirect_io`, so that the `log_path`
of the task is `NULL`. -/
def Launch.child {τ : Type} (L : Launch τ) (w : Whole τ) : ChildProc where
  logPath := none
  fds := w.proc.fds
  dir := none
  environ := L.environ
  mask := w.sigmask
  disposition := w.proc.disposition

/-- The child of `task_run`, up to the program that it executes; `none` where it
exits before. -/
def Launch.taskRunChild {τ : Type} (L : Launch τ) (w : Whole τ) (t : τ) (ok : ChildCall → Bool) :
    Option Program :=
  -- the context is there at every `fork`
  w.sup.ctx.bind fun ctx =>
    (taskPreRun ok w.proc.prefixDir (w.saved ctx) (w.sup.task t) (L.child w)).map
      (execv (w.sup.task t))

section
variable {ok : ChildCall → Bool} {prefixDir name : Str} {origmask : Signo → Bool} {task : Task}
  {c c' : ChildProc}

@[simp] theorem taskRedirectIo_disposition :
    (taskRedirectIo ok prefixDir name c).2.disposition = c.disposition := by
  unfold taskRedirectIo
  split
  · dsimp only
    split <;> rfl
  · rfl

theorem taskChdir_some {dir : Option Str} (h : taskChdir ok dir c = some c') :
    c'.fds = c.fds ∧ c'.disposition = c.disposition := by
  unfold taskChdir at h
  split at h
  · cases h
    exact ⟨rfl, rfl⟩
  · split at h
    · cases h
      exact ⟨rfl, rfl⟩
    · cases h

/-- What a child that gets as far as `execv` has done. -/
theorem taskPreRun_some (h : taskPreRun ok prefixDir origmask task c = some c') :
    c'.fds = (taskRedirectIo ok prefixDir (task.name.getD []) c).2.fds ∧ c'.mask = origmask ∧
      c'.disposition = c.disposition := by
  obtain ⟨c₁, hdir, hrest⟩ := Option.bind_eq_some_iff.mp h
  obtain ⟨hfds, hdisp⟩ := taskChdir_some hdir
  split at hrest
  · cases hrest
    exact ⟨hfds, rfl, hdisp.trans taskRedirectIo_disposition⟩
  · cases hrest

/-- Where no call fails, a child gets as far as `execv`. -/
theorem taskPreRun_ok : ∃ c', taskPreRun (fun _ => true) prefixDir origmask task c = some c' := by
  unfold taskPreRun taskChdir
  cases task.dir with
  | none => exact ⟨_, rfl⟩
  | some dir => exact ⟨_, rfl⟩

end

/-- The first task's program runs, where no call fails. -/
theorem first_child {τ : Type} [DecidableEq τ] {L : Launch τ} {t : τ} {rest : List τ}
    (htasks : L.env.cfg.tasks = t :: rest) (hrunnable : (L.env.cfg.task t).runnable = true) :
    ∃ w prog, Reach L.step anyInput L.whole w ∧ w.sup.pc = .fork t (.startTasks rest) ∧
      L.taskRunChild w t (fun _ => true) = some prog := by
  obtain ⟨σ, hσ, hpc⟩ := first_fork htasks hrunnable
  obtain ⟨w, hw, rfl⟩ := reach_sup_iff.mpr hσ
  obtain ⟨ctx, hctx, -⟩ := (running_fork hw hpc).ctx
  obtain ⟨c, hc⟩ : ∃ c, taskPreRun (fun _ => true) w.proc.prefixDir (w.saved ctx) (w.sup.task t)
      (L.child w) = some c := taskPreRun_ok
  refine ⟨w, execv (w.sup.task t) c, hw, hpc, ?_⟩
  rw [Launch.taskRunChild, hctx, Option.bind_some, hc]
  rfl

/-- `oneTask` is started in the foreground with these descriptors and ignored
signals, and with the paths of `secondStart`. -/
def shellStart (fds : Fds OpenFile) (ignored : Signo → Bool) : Start :=
  { secondStart with files := fun _ => none, fds := fds, ignored := ignored }

/-- Every call succeeds. -/
def allOk : Kernel where
  ok _ := true
  fork := .child
  forkAgain := .child
  getpid := 2

def shellLaunch (fds : Fds OpenFile) (ignored : Signo → Bool) : Launch Nat where
  env := oneTask
  start := shellStart fds ignored
  kernel := allOk
  daemonize := false
  proc := ((bzInitInstance allOk false (shellStart fds ignored).proc).state?).getD
    (shellStart fds ignored).proc
  mask _ := false
  environ _ := none
  init_ok := rfl
  mask_eq _ := rfl

end Bitzer
