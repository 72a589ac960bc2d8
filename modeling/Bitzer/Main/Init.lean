import Bitzer.Main.Instance

/-!
# What the initialisation leaves

`bz_init_instance` as a whole: what holds when it has failed, whichever step it
was that failed (`Stopped`), and what holds when it has succeeded (`Completed`).
-/

namespace Bitzer

open Lib

/-- The absolute path of a member. -/
def Start.named (s : Start) (m : Member) : Str := absPath s.prefixDir (s.path m)

theorem Start.named_ne (s : Start) (m : Member) : s.named m ≠ [] := by
  unfold Start.named absPath
  split
  · exact List.append_ne_nil_of_left_ne_nil (List.append_ne_nil_of_left_ne_nil s.prefixDir_ne _) _
  · rename_i h
    rintro hnil
    exact h (by rw [hnil]; rfl)

/-- The members in the order of their allocation. -/
def members : List Member := [.logFile, .confFile, .pidFile]

/-- The three allocations succeed, as far as they are made. -/
def Kernel.Allocates (k : Kernel) (s : Start) : Prop :=
  ∀ m ∈ members, isRelative (s.path m) = true → k.ok (.malloc m) = true

instance (k : Kernel) (s : Start) : Decidable (k.Allocates s) :=
  inferInstanceAs (Decidable (∀ m ∈ members, _))

/-- `bz_log_create` succeeds. -/
def Kernel.OpensLog (k : Kernel) : Prop := k.ok .mallocLog = true ∧ k.ok .openLog = true

/-- The descriptors once the log is open. -/
def Start.logFds (s : Start) : Fds OpenFile := s.fds.openAs (.file (s.named .logFile))

/-- `bz_write_pidfile` is reached, and opens the file. -/
structure Kernel.OpensPid (k : Kernel) (daemonize : Bool) (s : Start) : Prop where
  allocates : k.Allocates s
  opensLog : k.OpensLog
  daemonizes : daemonize = true → k.Daemonizes ∧ k.Redirects s.logFds
  installs : k.Installs
  openPid : k.ok .openPid = true

/-- A file is at `path` when the initialisation comes to the pid file, or stops
before: it was there, or it is the log. -/
def Kernel.Finds (k : Kernel) (s : Start) (path : Str) : Prop :=
  (s.files path).isSome = true ∨ (k.Allocates s ∧ k.OpensLog ∧ path = s.named .logFile)

/-- The files as they are then: those that were there, and the log. -/
structure Kernel.Files (k : Kernel) (s : Start) (files : Str → Option Str) : Prop where
  isSome : ∀ path, (files path).isSome = true ↔ k.Finds s path
  kept : ∀ path old, s.files path = some old → files path = some old

/-- The name that `bz_post_run` removes. -/
def Kernel.pidPath (k : Kernel) (s : Start) : Str :=
  if k.Allocates s then s.named .pidFile else s.path .pidFile

/-- The flags tell which members were allocated. -/
def Flagged (p : Proc) : Prop :=
  ∀ m name, p.effects.count (.alloc m name) = if p.alloc m = true ∧ p.path m = name then 1 else 0

/-- The members of `ms` have been made absolute, and nothing else was done. -/
structure Naming (s : Start) (ms : List Member) (p : Proc) : Prop where
  frame : p = { s.proc with path := p.path, alloc := p.alloc, effects := p.effects }
  path : ∀ m, p.path m = if m ∈ ms then s.named m else s.path m
  alloc : ∀ m, m ∉ ms → p.alloc m = false
  flagged : Flagged p
  effects : ∀ e ∈ p.effects, ∃ m name, e = .alloc m name

/-- `bz_log_create` has returned, and the pid file was not yet opened. -/
structure Assigned (k : Kernel) (s : Start) (p : Proc) : Prop where
  path : ∀ m, p.path m = s.named m
  flagged : Flagged p
  assigned : .assignLog ∈ p.effects
  untouched : ∀ path, .createPid path ∉ p.effects ∧ .writePid path ∉ p.effects
  files : k.Files s p.files

/-- What is left behind by an initialisation that has failed. -/
structure Stopped (k : Kernel) (daemonize : Bool) (s : Start) (p : Proc) : Prop where
  flagged : Flagged p
  path : p.path .pidFile = k.pidPath s
  assigned : k.Allocates s → .assignLog ∈ p.effects
  unassigned : ¬ k.Allocates s → .assignLog ∉ p.effects ∧ p.log = s.proc.log
  unwritten : ∀ path, .writePid path ∉ p.effects
  created : ∀ path, .createPid path ∈ p.effects ↔
    k.OpensPid daemonize s ∧ path = s.named .pidFile ∧ ¬ k.Finds s path
  opened : k.OpensPid daemonize s →
    ∃ files, k.Files s files ∧ p.files = Function.update files (s.named .pidFile) (some [])
  unopened : ¬ k.OpensPid daemonize s → k.Files s p.files

/-- The descriptors once the initialisation has succeeded. -/
def Kernel.fds (k : Kernel) (daemonize : Bool) (s : Start) : Fds OpenFile :=
  if daemonize then
    (s.logFds.redirect (fun i => k.ok (.dup2 i)) (.file (s.named .logFile))).2
  else s.logFds

/-- What an initialisation that has succeeded leaves. -/
structure Completed (k : Kernel) (daemonize : Bool) (s : Start) (p : Proc) : Prop where
  opensPid : k.OpensPid daemonize s
  fds : ∀ n, p.fds.get n = (k.fds daemonize s).get n
  disposition : p.disposition = installed signals s.proc.disposition

section
variable {k : Kernel} {daemonize : Bool} {s : Start} {p q : Proc} {m : Member} {ms : List Member}

theorem Naming.start : Naming s [] s.proc where
  frame := rfl
  path _ := rfl
  alloc _ _ := rfl
  flagged _ _ := rfl
  effects _ h := nomatch h

/-- One more allocated name. -/
theorem Flagged.alloc {name : Str} (h : Flagged p) (hm : p.alloc m = false) :
    Flagged { p with
      path := Function.update p.path m name
      alloc := Function.update p.alloc m true
      effects := .alloc m name :: p.effects } := by
  intro m' name'
  show (Effect.alloc m name :: p.effects).count (.alloc m' name') =
    if Function.update p.alloc m true m' = true ∧ Function.update p.path m name m' = name' then 1
    else 0
  rw [List.count_cons, h m' name']
  by_cases hm' : m' = m
  · subst hm'
    by_cases hname : name = name' <;> simp [hm, hname]
  · simp [Ne.symm hm', hm']

theorem Naming.step (h : Naming s ms p) (hm : m ∉ ms) :
    (strcatIfRelative k m p).Ends
      (fun q => (isRelative (s.path m) = true → k.ok (.malloc m) = true) ∧ Naming s (m :: ms) q)
      (fun q => ¬ (isRelative (s.path m) = true → k.ok (.malloc m) = true) ∧ Naming s ms q) := by
  have hpath : p.path m = s.path m := by rw [h.path, if_neg hm]
  have hdir : p.prefixDir = s.prefixDir := by rw [h.frame]; rfl
  have hname : absPath p.prefixDir (p.path m) = s.named m := by rw [hdir, hpath]; rfl
  have hends := strcatIfRelative_ends (k := k) (p := p) (m := m)
  rw [hname, hpath] at hends
  refine hends.mono (fun q hq => ⟨hq.1, ?_⟩) fun q hq => ⟨hq.1, hq.2 ▸ h⟩
  obtain ⟨-, rfl⟩ := hq
  split
  · refine ⟨?_, fun m' => ?_, fun m' hm' => ?_, h.flagged.alloc (h.alloc m hm), ?_⟩
    · exact congrArg (fun r : Proc => { r with
        path := Function.update p.path m (s.named m)
        alloc := Function.update p.alloc m true
        effects := .alloc m (s.named m) :: p.effects }) h.frame
    · show Function.update p.path m (s.named m) m' = _
      by_cases hm' : m' = m
      · subst hm'
        rw [Function.update_self, if_pos List.mem_cons_self]
      · rw [Function.update_of_ne hm', h.path]
        simp only [List.mem_cons, hm', false_or]
    · obtain ⟨hne, hnot⟩ := not_or.mp (mt List.mem_cons.mpr hm')
      exact (Function.update_of_ne hne _ _).trans (h.alloc m' hnot)
    · exact List.forall_mem_cons.mpr ⟨⟨m, s.named m, rfl⟩, h.effects⟩
  · rename_i hrel
    refine ⟨h.frame, fun m' => ?_, fun m' hm' => ?_, h.flagged, h.effects⟩
    · by_cases hm' : m' = m
      · subst hm'
        rw [if_pos List.mem_cons_self, hpath]
        exact (if_neg hrel).symm
      · rw [h.path]
        simp only [List.mem_cons, hm', false_or]
    · exact h.alloc m' fun hmem => hm' (List.mem_cons_of_mem m hmem)

/-- An allocation has failed; the pid file's name is the last one. -/
theorem Naming.stopped (h : Naming s ms p) (hpid : .pidFile ∉ ms) (hnot : ¬ k.Allocates s) :
    Stopped k daemonize s p where
  flagged := h.flagged
  path := by rw [h.path, if_neg hpid, Kernel.pidPath, if_neg hnot]
  assigned hall := absurd hall hnot
  unassigned _ := by
    refine ⟨fun hmem => ?_, by rw [h.frame]⟩
    obtain ⟨m, name, heq⟩ := h.effects _ hmem
    cases heq
  unwritten path hmem := by
    obtain ⟨m, name, heq⟩ := h.effects _ hmem
    cases heq
  created path := by
    refine iff_of_false (fun hmem => ?_) fun hopens => hnot hopens.1.allocates
    obtain ⟨m, name, heq⟩ := h.effects _ hmem
    cases heq
  opened hopens := absurd hopens.allocates hnot
  unopened _ := by
    rw [show p.files = s.files by rw [h.frame]; rfl]
    exact ⟨fun path => (or_iff_left fun hlog => hnot hlog.1).symm, fun _ _ hold => hold⟩

/-- Nothing in `Flagged` is about the other effects. -/
theorem Flagged.cons {e : Effect} (h : Flagged p) (hpath : q.path = p.path)
    (halloc : q.alloc = p.alloc) (heff : q.effects = e :: p.effects ∨ q.effects = p.effects)
    (he : ∀ m name, e ≠ .alloc m name) : Flagged q := by
  intro m name
  rw [hpath, halloc, ← h m name]
  rcases heff with heff | heff
  · rw [heff, List.count_cons_of_ne (he m name)]
  · rw [heff]

theorem Naming.bzLogCreate (h : Naming s ms p) (hms : ∀ m, m ∈ ms) (hall : k.Allocates s) :
    (bzLogCreate k p).Ends
      (fun q => k.OpensLog ∧ Assigned k s q ∧ q.fds = s.logFds ∧
        q.disposition = s.proc.disposition)
      (fun q => ¬ k.OpensLog ∧ Assigned k s q) := by
  have hpath : ∀ m, p.path m = s.named m := fun m => by rw [h.path, if_pos (hms m)]
  have hfiles : p.files = s.files := by rw [h.frame]; rfl
  have hfds : p.fds = s.fds := by rw [h.frame]; rfl
  have huntouched : ∀ path, Effect.createPid path ∉ Effect.assignLog :: p.effects ∧
      Effect.writePid path ∉ Effect.assignLog :: p.effects := by
    intro path
    constructor
    · intro hmem
      obtain ⟨m, name, heq⟩ := h.effects _ ((List.mem_cons.mp hmem).resolve_left (by simp))
      cases heq
    · intro hmem
      obtain ⟨m, name, heq⟩ := h.effects _ ((List.mem_cons.mp hmem).resolve_left (by simp))
      cases heq
  refine (bzLogCreate_ends (by rw [hpath]; exact s.named_ne _)).mono (fun q hq => ?_) fun q hq => ?_
  · obtain ⟨hlog, rfl⟩ := hq
    refine ⟨hlog, ⟨hpath, h.flagged.cons rfl rfl (Or.inl rfl) nofun, List.mem_cons_self,
      huntouched, ?_⟩, ?_, ?_⟩
    · show k.Files s (p.creat (p.path .logFile))
      unfold Proc.creat
      rw [hpath, hfiles]
      refine ⟨fun path => ?_, fun path old hold => ?_⟩
      · unfold Kernel.Finds
        by_cases hname : path = s.named .logFile
        · rw [hname, Function.update_self]
          exact iff_of_true rfl (Or.inr ⟨hall, hlog, rfl⟩)
        · rw [Function.update_of_ne hname]
          exact (or_iff_left fun hfound => hname hfound.2.2).symm
      · by_cases hname : path = s.named .logFile
        · rw [← hname, Function.update_self, hold]
          rfl
        · rw [Function.update_of_ne hname, hold]
    · rw [hfds, hpath]
      rfl
    · rw [h.frame]
  · obtain ⟨hlog, rfl⟩ := hq
    refine ⟨hlog, hpath, h.flagged.cons rfl rfl (Or.inl rfl) nofun, List.mem_cons_self,
      huntouched, ?_⟩
    show k.Files s p.files
    rw [hfiles]
    exact ⟨fun path => (or_iff_left fun hfound => hlog hfound.2.1).symm, fun _ _ hold => hold⟩

/-- It is not about the descriptors and the dispositions. -/
theorem Assigned.frame (h : Assigned k s p) (fds : Fds OpenFile)
    (disposition : Signo → Disposition) (pid : Int32) :
    Assigned k s { p with fds := fds, disposition := disposition, pid := pid } :=
  ⟨h.path, h.flagged, h.assigned, h.untouched, h.files⟩

theorem Assigned.stopped (h : Assigned k s p) (hall : k.Allocates s)
    (hnot : ¬ k.OpensPid daemonize s) : Stopped k daemonize s p where
  flagged := h.flagged
  path := by rw [h.path, Kernel.pidPath, if_pos hall]
  assigned _ := h.assigned
  unassigned hno := absurd hall hno
  unwritten path := (h.untouched path).2
  created path := iff_of_false (h.untouched path).1 fun hopens => hnot hopens.1
  opened hopens := absurd hopens hnot
  unopened _ := h.files

/-- The pid file has been opened, and what fails is the rest of `bz_write_pidfile`. -/
theorem Assigned.emptied (h : Assigned k s p) (hopens : k.OpensPid daemonize s)
    {fds : Fds OpenFile} {disposition : Signo → Disposition} {pid : Int32} :
    Stopped k daemonize s { p with
      files := Function.update p.files (p.path .pidFile) (some [])
      fds := fds
      disposition := disposition
      pid := pid
      effects := if (p.files (p.path .pidFile)).isSome then p.effects
        else .createPid (p.path .pidFile) :: p.effects } := by
  have hpath : p.path .pidFile = s.named .pidFile := h.path _
  have hmem : ∀ e, e ≠ .createPid (p.path .pidFile) →
      (e ∈ (if (p.files (p.path .pidFile)).isSome then p.effects
        else .createPid (p.path .pidFile) :: p.effects) ↔ e ∈ p.effects) := by
    intro e he
    split
    · exact Iff.rfl
    · exact List.mem_cons.trans (or_iff_right he)
  refine ⟨h.flagged.cons (e := .createPid (p.path .pidFile)) rfl rfl ?_ nofun, ?_, fun _ => ?_,
    fun hno => absurd hopens.allocates hno, fun path hw => ?_, fun path => ?_,
    fun _ => ⟨p.files, h.files, ?_⟩, fun hno => absurd hopens hno⟩
  · show (if _ then _ else _) = _ ∨ (if _ then _ else _) = _
    split
    · exact Or.inr rfl
    · exact Or.inl rfl
  · rw [Kernel.pidPath, if_pos hopens.allocates]
    exact hpath
  · exact (hmem _ (by simp)).mpr h.assigned
  · exact (h.untouched path).2 ((hmem _ (by simp)).mp hw)
  · show Effect.createPid path ∈ (if _ then _ else _) ↔ _
    rw [hpath]
    by_cases hfile : (p.files (s.named .pidFile)).isSome = true
    · rw [if_pos hfile]
      refine iff_of_false (h.untouched path).1 ?_
      rintro ⟨-, rfl, hno⟩
      exact hno ((h.files.isSome _).mp hfile)
    · rw [if_neg hfile, List.mem_cons, or_iff_left (h.untouched path).1]
      constructor
      · intro heq
        cases heq
        exact ⟨hopens, rfl, fun hfound => hfile ((h.files.isSome _).mpr hfound)⟩
      · rintro ⟨-, rfl, -⟩
        rfl
  · show Function.update p.files _ _ = _
    rw [hpath]

/-- The names, one after the other. -/
theorem bzInitInstance_names : ((strcatIfRelative k .logFile s.proc).andThen fun p =>
    (strcatIfRelative k .confFile p).andThen fun p => strcatIfRelative k .pidFile p).Ends
      (fun q => k.Allocates s ∧ Naming s [.pidFile, .confFile, .logFile] q)
      (Stopped k daemonize s) := by
  refine ((Naming.start.step List.not_mem_nil).mono (fun p hp => hp) fun p hp => ?_).andThen
    fun p ⟨hlogFile, hp⟩ => ?_
  · exact hp.2.stopped List.not_mem_nil fun hall => hp.1 (hall _ (by decide))
  refine ((hp.step (by decide)).mono (fun p hp => hp) fun p hp => ?_).andThen
    fun p ⟨hconfFile, hp⟩ => ?_
  · exact hp.2.stopped (by decide) fun hall => hp.1 (hall _ (by decide))
  refine (hp.step (by decide)).mono (fun p ⟨hpidFile, hp⟩ => ⟨?_, hp⟩) fun p hp => ?_
  · exact List.forall_mem_cons.mpr ⟨hlogFile, List.forall_mem_cons.mpr ⟨hconfFile,
      List.forall_mem_singleton.mpr hpidFile⟩⟩
  · exact hp.2.stopped (by decide) fun hall => hp.1 (hall _ (by decide))

/-- The background, where it is asked for. -/
theorem Assigned.background (h : Assigned k s p) (hall : k.Allocates s) (hfds : p.fds = s.logFds)
    (hdisp : p.disposition = s.proc.disposition) :
    ((if daemonize then bzDaemonize k p else .ok p).andThen fun p =>
      if daemonize then bzRedirectIo k p else .ok p).Ends
      (fun q => (daemonize = true → k.Daemonizes ∧ k.Redirects s.logFds) ∧ Assigned k s q ∧
        q.fds = k.fds daemonize s ∧ q.disposition = s.proc.disposition)
      (Stopped k daemonize s) := by
  cases daemonize with
  | false => exact ⟨nofun, h, hfds, hdisp⟩
  | true =>
      refine (bzDaemonize_ends.mono (fun q hq => hq) fun q hq => ?_).andThen fun q hq => ?_
      · obtain ⟨hno, rfl⟩ := hq
        exact h.stopped hall fun hopens => hno (hopens.daemonizes rfl).1
      obtain ⟨hforks, rfl⟩ := hq
      refine bzRedirectIo_ends.mono (fun r hr => ?_) fun r hr => ?_
      · rw [hr.2]
        refine ⟨fun _ => ⟨hforks, hfds ▸ hr.1⟩, h.frame _ _ _, ?_, hdisp⟩
        show (q.fds.redirect _ _).2 = _
        rw [hfds, h.path]
        rfl
      · rw [hr.2]
        refine (h.frame _ _ _).stopped hall fun hopens => ?_
        exact hr.1 (hfds ▸ (hopens.daemonizes rfl).2)

/-- The last two steps. -/
theorem Assigned.finish (h : Assigned k s p) (hall : k.Allocates s) (hlog : k.OpensLog)
    (hback : daemonize = true → k.Daemonizes ∧ k.Redirects s.logFds)
    (hfds : p.fds = k.fds daemonize s) (hdisp : p.disposition = s.proc.disposition) :
    ((signalInit k p).andThen fun p => bzWritePidfile k { p with pid := k.getpid }).Ends
      (Completed k daemonize s) (Stopped k daemonize s) := by
  refine (sigactions_ends.mono (fun q hq => hq) fun q hq => ?_).andThen fun q hq => ?_
  · rw [hq.2]
    exact (h.frame _ _ _).stopped hall fun hopens => hq.1 hopens.installs
  obtain ⟨hinstalls, rfl⟩ := hq
  refine bzWritePidfile_ends.mono (fun r hr => ?_) fun r hr => ?_
  · rw [hr.2]
    refine ⟨⟨hall, hlog, hback, hinstalls, hr.1⟩, fun n => ?_, ?_⟩
    · exact Fds.get_openAs_close.trans (by rw [← hfds])
    · rw [← hdisp]
  rcases hr with ⟨hopen, hr⟩ | ⟨hopen, hr⟩
  · have hopens : k.OpensPid daemonize s := ⟨hall, hlog, hback, hinstalls, hopen⟩
    rw [hr]
    exact h.emptied hopens
  · rw [hr]
    exact (h.frame _ _ _).stopped hall fun hopens => hopen hopens.openPid

end

/-- Every success leaves what `Completed` says, and every failure what `Stopped`
says. -/
theorem bzInitInstance_ends (k : Kernel) (daemonize : Bool) (s : Start) :
    (bzInitInstance k daemonize s.proc).Ends (Completed k daemonize s) (Stopped k daemonize s) := by
  have hsplit : bzInitInstance k daemonize s.proc =
      ((strcatIfRelative k .logFile s.proc).andThen fun p =>
        (strcatIfRelative k .confFile p).andThen fun p => strcatIfRelative k .pidFile p).andThen
      fun p => (bzLogCreate k p).andThen fun p =>
        ((if daemonize then bzDaemonize k p else .ok p).andThen fun p =>
          if daemonize then bzRedirectIo k p else .ok p).andThen
        fun p => (signalInit k p).andThen fun p => bzWritePidfile k { p with pid := k.getpid } := by
    simp only [Exit.andThen_assoc]
    rfl
  rw [hsplit]
  refine bzInitInstance_names.andThen fun p hp => ?_
  obtain ⟨hall, hp⟩ := hp
  refine ((hp.bzLogCreate (fun m => by cases m <;> decide) hall).mono (fun p hp => hp)
    fun p hp => ?_).andThen fun p hp => ?_
  · exact hp.2.stopped hall fun hopens => hp.1 hopens.opensLog
  obtain ⟨hlog, hp, hfds, hdisp⟩ := hp
  refine (hp.background hall hfds hdisp).andThen fun q hq => ?_
  obtain ⟨hback, hq, hfds, hdisp⟩ := hq
  exact hq.finish hall hlog hback hfds hdisp

theorem completed_of_ok {k : Kernel} {daemonize : Bool} {s : Start} {p : Proc}
    (h : bzInitInstance k daemonize s.proc = .ok p) : Completed k daemonize s p := by
  have hends := bzInitInstance_ends k daemonize s
  rwa [h] at hends

theorem stopped_of_error {k : Kernel} {daemonize : Bool} {s : Start} {p : Proc}
    (h : bzInitInstance k daemonize s.proc = .error p) : Stopped k daemonize s p := by
  have hends := bzInitInstance_ends k daemonize s
  rwa [h] at hends

end Bitzer
