import Bitzer.Context.State
import Bitzer.Lib.Fds
import Bitzer.Lib.Wp

/-!
# The start of the process

`bz_init_instance` and what it calls, on the part of the process that they
change: `struct bitzer_s`, the files, the descriptors and the dispositions of
the signals. The kernel answers every call that can fail; `effects` is the
history, for statements about it.
-/

namespace Bitzer

open Lib

/-- The members of `struct bitzer_s` with an `_alloc` flag. -/
inductive Member where
  | logFile
  | confFile
  | pidFile
  deriving DecidableEq, Repr

/-- `bz->log`. The instance is on the stack and its `log` is not initialised, so
before `bz_log_create` it may be a pointer to anything. -/
inductive LogPtr where
  | null
  | wild
  | log (fd : Nat)
  deriving DecidableEq, Repr

/-- What a descriptor is open on. -/
inductive OpenFile where
  | file (path : Str)
  | other (n : Nat)
  deriving DecidableEq, Repr

/-- The signals: those of `signal_handler`, `SIGPIPE`, and the others, which the
program does not name. -/
inductive Signo where
  | handled (s : Signal)
  | pipe
  | other (n : Nat)
  deriving DecidableEq, Repr

inductive Disposition where
  | default
  | ignore
  | handler
  deriving DecidableEq, Repr

/-- The calls that can fail, `fork` apart. -/
inductive Call where
  | malloc (m : Member)
  | mallocLog
  | openLog
  | setsid
  | openRedirect
  | dup2 (fd : Nat)
  | closeRedirect
  | sigaction (s : Signo)
  | openPid
  | snprintf
  | writePid
  | unlink
  deriving DecidableEq, Repr

inductive Forked where
  | child
  | parent
  | failed
  deriving DecidableEq, Repr

/-- What the kernel answers; both `fork`s of `bz_daemonize`. -/
structure Kernel where
  ok : Call → Bool
  fork : Forked
  forkAgain : Forked
  getpid : Int32

inductive Effect where
  /-- The member was replaced by an allocated string. -/
  | alloc (m : Member) (name : Str)
  /-- `bz_log_create` has returned into `bz->log`. -/
  | assignLog
  /-- The `open` of `bz_write_pidfile` has made the file. -/
  | createPid (path : Str)
  /-- `bz_write_pidfile` has written it. -/
  | writePid (path : Str)
  /-- The file was removed. -/
  | unlink (path : Str)
  | useLog
  | closeLog
  | free (m : Member) (name : Str)
  deriving DecidableEq, Repr

structure Proc where
  prefixDir : Str
  path : Member → Str
  alloc : Member → Bool
  log : LogPtr
  pid : Int32
  files : Str → Option Str
  fds : Fds OpenFile
  disposition : Signo → Disposition
  /-- The last one first. -/
  effects : List Effect

/-- How a function returns: `BZ_OK`, `BZ_ERROR`, or not at all where the process
was the parent of a `fork`. -/
abbrev Status := Exit Proc

/-- `BZ_PATHSEP` is missing at the beginning. -/
def isRelative (path : Str) : Bool := path.head? != some 47

/-- A path below the prefix. -/
def absPath (prefixDir path : Str) : Str :=
  if isRelative path then
    prefixDir ++ (if prefixDir.getLast? = some 47 then [] else [47]) ++ path
  else path

/-- `BZ_STRCAT_IF_RELATIVE`. -/
def strcatIfRelative (k : Kernel) (m : Member) (p : Proc) : Status :=
  if isRelative (p.path m) then
    if k.ok (.malloc m) then
      let name := absPath p.prefixDir (p.path m)
      .ok { p with
        path := Function.update p.path m name
        alloc := Function.update p.alloc m true
        effects := .alloc m name :: p.effects }
    else .error p
  else .ok p

/-- The file exists after `open` with `O_CREAT`. -/
def Proc.creat (p : Proc) (path : Str) : Str → Option Str :=
  Function.update p.files path (some ((p.files path).getD []))

/-- `bz_log_create` and the check of its result. -/
def bzLogCreate (k : Kernel) (p : Proc) : Status :=
  let p := { p with effects := .assignLog :: p.effects }
  if k.ok .mallocLog then
    if p.path .logFile = [] then .ok { p with log := .log 2 }
    else if k.ok .openLog then
      .ok { p with
        log := .log p.fds.lowestFree
        files := p.creat (p.path .logFile)
        fds := p.fds.openAs (.file (p.path .logFile)) }
    else .error { p with log := .null }
  else .error { p with log := .null }

/-- `bz_daemonize`; the process is the last child. -/
def bzDaemonize (k : Kernel) (p : Proc) : Status :=
  match k.fork with
  | .failed => .error p
  | .parent => .exited
  | .child =>
      if k.ok .setsid then
        match k.forkAgain with
        | .failed => .error p
        | .parent => .exited
        | .child => .ok p
      else .error p

/-- `bz_redirect_io`. -/
def bzRedirectIo (k : Kernel) (p : Proc) : Status :=
  if k.ok .openRedirect then
    let r := p.fds.redirect (fun i => k.ok (.dup2 i)) (.file (p.path .logFile))
    let p := { p with fds := r.2 }
    if r.1 && k.ok .closeRedirect then .ok p else .error p
  else .error p

/-- The table `signals`. -/
def signals : List (Signo × Disposition) := [
  (.handled .quit, .handler),
  (.handled .term, .handler),
  (.handled .hup, .handler),
  (.handled .usr1, .handler),
  (.handled .int, .handler),
  (.handled .chld, .handler),
  (.handled .ttin, .handler),
  (.handled .ttou, .handler),
  (.pipe, .ignore)]

/-- The loop of `signal_init`. -/
def sigactions (k : Kernel) : List (Signo × Disposition) → Proc → Status
  | [], p => .ok p
  | (s, d) :: sigs, p =>
      if k.ok (.sigaction s) then
        sigactions k sigs { p with disposition := Function.update p.disposition s d }
      else .error p

/-- `signal_init`. -/
def signalInit (k : Kernel) (p : Proc) : Status := sigactions k signals p

/-- `snprintf` with `%d`. -/
def decimal (n : Int32) : Str := (toString n.toInt).toList.map Char.toUInt8

/-- `bz_write_pidfile`. -/
def bzWritePidfile (k : Kernel) (p : Proc) : Status :=
  let path := p.path .pidFile
  if k.ok .openPid then
    -- `O_CREAT | O_TRUNC`
    let p := { p with
      files := Function.update p.files path (some [])
      fds := (p.fds.openAs (.file path)).close p.fds.lowestFree
      effects := if (p.files path).isSome then p.effects else .createPid path :: p.effects }
    if k.ok .snprintf && k.ok .writePid then
      .ok { p with
        files := Function.update p.files path (some (decimal p.pid ++ [10]))
        effects := .writePid path :: p.effects }
    else .error p
  else .error p

/-- `bz_init_instance`. -/
def bzInitInstance (k : Kernel) (daemonize : Bool) (p : Proc) : Status :=
  (strcatIfRelative k .logFile p).andThen fun p =>
  (strcatIfRelative k .confFile p).andThen fun p =>
  (strcatIfRelative k .pidFile p).andThen fun p =>
  (bzLogCreate k p).andThen fun p =>
  (if daemonize then bzDaemonize k p else .ok p).andThen fun p =>
  (if daemonize then bzRedirectIo k p else .ok p).andThen fun p =>
  (signalInit k p).andThen fun p =>
  bzWritePidfile k { p with pid := k.getpid }

/-- What the process finds when `bz_get_options` has returned: the options and
their defaults, what happens to be in the memory of `bz.log`, the files, the
descriptors, and the signals that are ignored. -/
structure Start where
  prefixDir : Str
  path : Member → Str
  garbage : Bool
  files : Str → Option Str
  fds : Fds OpenFile
  ignored : Signo → Bool
  /-- `access` has succeeded on it. -/
  prefixDir_ne : prefixDir ≠ []

/-- `bz_set_default_instance` and `bz_get_options`. -/
def Start.proc (s : Start) : Proc where
  prefixDir := s.prefixDir
  path := s.path
  alloc _ := false
  log := if s.garbage then .wild else .null
  pid := -1
  files := s.files
  fds := s.fds
  disposition sig := if s.ignored sig then .ignore else .default
  effects := []

/-! ## What each function does -/

/-- `bz_daemonize` succeeds. -/
def Kernel.Daemonizes (k : Kernel) : Prop :=
  k.fork = .child ∧ k.ok .setsid = true ∧ k.forkAgain = .child

/-- `bz_redirect_io` succeeds on these descriptors. -/
def Kernel.Redirects (k : Kernel) (t : Fds OpenFile) : Prop :=
  k.ok .openRedirect = true ∧ (∀ i ∈ Fds.std, i = t.lowestFree ∨ k.ok (.dup2 i) = true) ∧
    k.ok .closeRedirect = true

/-- `signal_init` succeeds. -/
def Kernel.Installs (k : Kernel) : Prop := ∀ e ∈ signals, k.ok (.sigaction e.1) = true

/-- The dispositions that `signal_init` leaves. -/
def installed (sigs : List (Signo × Disposition)) (d : Signo → Disposition) :
    Signo → Disposition :=
  sigs.foldl (fun d e => Function.update d e.1 e.2) d

section
variable {k : Kernel} {p : Proc} {m : Member}

theorem strcatIfRelative_ends : (strcatIfRelative k m p).Ends
    (fun q => (isRelative (p.path m) = true → k.ok (.malloc m) = true) ∧
      q = if isRelative (p.path m) then
          { p with
            path := Function.update p.path m (absPath p.prefixDir (p.path m))
            alloc := Function.update p.alloc m true
            effects := .alloc m (absPath p.prefixDir (p.path m)) :: p.effects }
        else p)
    (fun q => ¬ (isRelative (p.path m) = true → k.ok (.malloc m) = true) ∧ q = p) := by
  unfold strcatIfRelative
  refine Exit.Ends.ite (fun hrel => Exit.Ends.ite (fun hok => ?_) fun hok => ?_) fun hrel => ?_
  · exact ⟨fun _ => hok, (if_pos hrel).symm⟩
  · exact ⟨fun h => hok (h hrel), rfl⟩
  · exact ⟨fun h => absurd h hrel, (if_neg hrel).symm⟩

/-- Where the log has a name. -/
theorem bzLogCreate_ends (hname : p.path .logFile ≠ []) : (bzLogCreate k p).Ends
    (fun q => (k.ok .mallocLog = true ∧ k.ok .openLog = true) ∧
      q = { p with
        log := .log p.fds.lowestFree
        files := p.creat (p.path .logFile)
        fds := p.fds.openAs (.file (p.path .logFile))
        effects := .assignLog :: p.effects })
    (fun q => ¬ (k.ok .mallocLog = true ∧ k.ok .openLog = true) ∧
      q = { p with log := .null, effects := .assignLog :: p.effects }) := by
  unfold bzLogCreate
  refine Exit.Ends.ite (fun hmalloc => ?_) fun hmalloc => ⟨fun h => hmalloc h.1, rfl⟩
  rw [if_neg hname]
  refine Exit.Ends.ite (fun hopen => ?_) fun hopen => ⟨fun h => hopen h.2, rfl⟩
  exact ⟨⟨hmalloc, hopen⟩, rfl⟩

theorem bzDaemonize_ends : (bzDaemonize k p).Ends (fun q => k.Daemonizes ∧ q = p)
    (fun q => ¬ k.Daemonizes ∧ q = p) := by
  unfold bzDaemonize Kernel.Daemonizes
  cases k.fork with
  | failed => exact ⟨nofun, rfl⟩
  | parent => trivial
  | child =>
      refine Exit.Ends.ite (fun hsetsid => ?_) fun hsetsid => ⟨fun h => hsetsid h.2.1, rfl⟩
      cases k.forkAgain with
      | failed => exact ⟨nofun, rfl⟩
      | parent => trivial
      | child => exact ⟨⟨rfl, hsetsid, rfl⟩, rfl⟩

theorem bzRedirectIo_ends : (bzRedirectIo k p).Ends
    (fun q => k.Redirects p.fds ∧ q = { p with
      fds := (p.fds.redirect (fun i => k.ok (.dup2 i)) (.file (p.path .logFile))).2 })
    (fun q => ¬ k.Redirects p.fds ∧ q = { p with fds := q.fds }) := by
  unfold bzRedirectIo Kernel.Redirects
  refine Exit.Ends.ite (fun hopen => ?_) fun hopen => ⟨fun h => hopen h.1, rfl⟩
  refine Exit.Ends.ite (fun hdup => ?_) fun hdup => ?_
  · rw [Bool.and_eq_true, Fds.redirect_fst] at hdup
    exact ⟨⟨hopen, hdup⟩, rfl⟩
  · rw [Bool.and_eq_true, Fds.redirect_fst] at hdup
    exact ⟨fun h => hdup h.2, rfl⟩

theorem sigactions_ends {sigs : List (Signo × Disposition)} : (sigactions k sigs p).Ends
    (fun q => (∀ e ∈ sigs, k.ok (.sigaction e.1) = true) ∧
      q = { p with disposition := installed sigs p.disposition })
    (fun q => ¬ (∀ e ∈ sigs, k.ok (.sigaction e.1) = true) ∧
      q = { p with disposition := q.disposition }) := by
  induction sigs generalizing p with
  | nil => exact ⟨List.forall_mem_nil _, rfl⟩
  | cons e sigs ih =>
      rw [List.forall_mem_cons]
      refine Exit.Ends.ite (fun hok => ih.mono (fun q hq => ?_) fun q hq => ?_) fun hok => ?_
      · exact ⟨⟨hok, hq.1⟩, hq.2⟩
      · exact ⟨fun h => hq.1 h.2, hq.2⟩
      · exact ⟨fun h => hok h.1, rfl⟩

theorem bzWritePidfile_ends : (bzWritePidfile k p).Ends
    (fun q => k.ok .openPid = true ∧ q = { p with
      files := q.files
      fds := (p.fds.openAs (.file (p.path .pidFile))).close p.fds.lowestFree
      effects := q.effects })
    (fun q => (k.ok .openPid = true ∧ q = { p with
        files := Function.update p.files (p.path .pidFile) (some [])
        fds := q.fds
        effects := if (p.files (p.path .pidFile)).isSome then p.effects
          else .createPid (p.path .pidFile) :: p.effects }) ∨
      (k.ok .openPid ≠ true ∧ q = p)) := by
  unfold bzWritePidfile
  refine Exit.Ends.ite (fun hopen => ?_) fun hopen => Or.inr ⟨hopen, rfl⟩
  exact Exit.Ends.ite (fun _ => ⟨hopen, rfl⟩) fun _ => Or.inl ⟨hopen, rfl⟩

end

end Bitzer
