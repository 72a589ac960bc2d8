import Bitzer.Main.Init

/-!
# What the clean-up touches

`bz_post_run` after a failed `bz_init_instance`. Its one list of actions serves
every failure, whatever was done before it: the pid file is removed without a
look at who wrote it, also where `bz_write_pidfile` has just emptied that of another
instance, and the log is tested against `NULL` although nothing has assigned it
before `bz_log_create`.
-/

namespace Bitzer

open Lib

/-! ## `bz_post_run` -/

/-- `bz_remove_pidfile`, and the record of its failure. -/
def bzRemovePidfile (k : Kernel) (p : Proc) : Proc :=
  let path := p.path .pidFile
  if k.ok .unlink && (p.files path).isSome then
    { p with files := Function.update p.files path none, effects := .unlink path :: p.effects }
  else if p.log ≠ .null then { p with effects := .useLog :: p.effects }
  else p

/-- The last record, and `bz_log_close`. -/
def bzLogClose (p : Proc) : Proc :=
  if p.log ≠ .null then
    { p with
      fds := match p.log with
        | .log fd => if 0 < fd ∧ fd ≠ 2 then p.fds.close fd else p.fds
        | _ => p.fds
      effects := .closeLog :: .useLog :: p.effects }
  else p

/-- `BZ_FREE_IF_ALLOC`. -/
def freeIfAlloc (m : Member) (p : Proc) : Proc :=
  if p.alloc m then
    -- the member is `NULL` from here on
    { p with path := Function.update p.path m [], effects := .free m (p.path m) :: p.effects }
  else p

/-- `bz_post_run`. -/
def bzPostRun (k : Kernel) (p : Proc) : Proc :=
  freeIfAlloc .pidFile (freeIfAlloc .confFile (freeIfAlloc .logFile
    (bzLogClose (bzRemovePidfile k p))))

/-- What `bz_post_run` does. -/
def cleanup (k : Kernel) (p : Proc) : List Effect := (bzPostRun k { p with effects := [] }).effects

/-- The files from before have lost nothing; a log may have been added to one. -/
def Keeps (before after : Str → Option Str) : Prop :=
  ∀ path old, before path = some old → ∃ records, after path = some (old ++ records)

/-- The clean-up behind `p`, where the start `s` has failed, touches what the
initialisation has acquired, and nothing else. -/
structure Undoes (k : Kernel) (s : Start) (p : Proc) : Prop where
  /-- What is removed is a file that `bz_write_pidfile` has made or written. -/
  pidfile : ∀ path, .unlink path ∈ cleanup k p →
    .createPid path ∈ p.effects ∨ .writePid path ∈ p.effects
  log : .useLog ∈ cleanup k p ∨ .closeLog ∈ cleanup k p → .assignLog ∈ p.effects
  free : ∀ m name, (cleanup k p).count (.free m name) = p.effects.count (.alloc m name)
  /-- The pid file of an instance that runs is still there, as it was. -/
  kept : Keeps s.files (bzPostRun k p).files

section
variable {k : Kernel} {s : Start} {p : Proc} {m m' : Member} {e : Effect} {name : Str}

/-! Each function leaves most of the process alone. -/

theorem bzRemovePidfile_frame : bzRemovePidfile k p = { p with
    files := (bzRemovePidfile k p).files
    effects := (bzRemovePidfile k p).effects } := by
  unfold bzRemovePidfile
  dsimp only
  split
  · rfl
  · split <;> rfl

theorem bzLogClose_frame : bzLogClose p = { p with
    fds := (bzLogClose p).fds
    effects := (bzLogClose p).effects } := by
  unfold bzLogClose
  split <;> rfl

theorem freeIfAlloc_frame : freeIfAlloc m p = { p with
    path := (freeIfAlloc m p).path
    effects := (freeIfAlloc m p).effects } := by
  unfold freeIfAlloc
  split <;> rfl

@[simp] theorem bzRemovePidfile_alloc : (bzRemovePidfile k p).alloc = p.alloc := by
  rw [bzRemovePidfile_frame]

@[simp] theorem bzRemovePidfile_path : (bzRemovePidfile k p).path = p.path := by
  rw [bzRemovePidfile_frame]

@[simp] theorem bzRemovePidfile_log : (bzRemovePidfile k p).log = p.log := by
  rw [bzRemovePidfile_frame]

@[simp] theorem bzLogClose_alloc : (bzLogClose p).alloc = p.alloc := by
  rw [bzLogClose_frame]

@[simp] theorem bzLogClose_path : (bzLogClose p).path = p.path := by
  rw [bzLogClose_frame]

@[simp] theorem freeIfAlloc_alloc : (freeIfAlloc m p).alloc = p.alloc := by
  rw [freeIfAlloc_frame]

theorem freeIfAlloc_path (h : m' ≠ m) : (freeIfAlloc m p).path m' = p.path m' := by
  unfold freeIfAlloc
  split
  · exact Function.update_of_ne h _ _
  · rfl

theorem bzPostRun_disposition : (bzPostRun k p).disposition = p.disposition := by
  rw [bzPostRun, freeIfAlloc_frame, freeIfAlloc_frame, freeIfAlloc_frame, bzLogClose_frame,
    bzRemovePidfile_frame]

theorem bzPostRun_files : (bzPostRun k p).files =
    if k.ok .unlink = true ∧ (p.files (p.path .pidFile)).isSome = true then
      Function.update p.files (p.path .pidFile) none
    else p.files := by
  rw [bzPostRun, freeIfAlloc_frame, freeIfAlloc_frame, freeIfAlloc_frame, bzLogClose_frame]
  show (bzRemovePidfile k p).files = _
  unfold bzRemovePidfile
  simp only [Bool.and_eq_true]
  split
  · rfl
  · split <;> rfl

/-- What is done before the members are freed. -/
theorem before_free : (bzLogClose (bzRemovePidfile k { p with effects := [] })).effects =
    (if p.log ≠ .null then [.closeLog, .useLog] else []) ++
      if k.ok .unlink = true ∧ (p.files (p.path .pidFile)).isSome = true then
        [.unlink (p.path .pidFile)]
      else if p.log ≠ .null then [.useLog] else [] := by
  unfold bzLogClose
  rw [bzRemovePidfile_log]
  unfold bzRemovePidfile
  simp only [Bool.and_eq_true]
  by_cases hnull : p.log = .null
  · simp only [hnull, ne_eq, not_true_eq_false, if_false]
    split <;> rfl
  · simp only [ne_eq, hnull, not_false_eq_true, if_true]
    split <;> rfl

theorem mem_freeIfAlloc (he : ∀ name, e ≠ .free m name) :
    e ∈ (freeIfAlloc m p).effects ↔ e ∈ p.effects := by
  unfold freeIfAlloc
  split
  · exact List.mem_cons.trans (or_iff_right (he _))
  · rfl

theorem mem_cleanup (he : ∀ m name, e ≠ .free m name) :
    e ∈ cleanup k p ↔ e ∈ (bzLogClose (bzRemovePidfile k { p with effects := [] })).effects := by
  rw [cleanup, bzPostRun, mem_freeIfAlloc (he _), mem_freeIfAlloc (he _), mem_freeIfAlloc (he _)]

theorem count_freeIfAlloc :
    (freeIfAlloc m p).effects.count (.free m' name) =
      p.effects.count (.free m' name) +
        if m = m' ∧ p.alloc m = true ∧ p.path m = name then 1 else 0 := by
  unfold freeIfAlloc
  split
  · rename_i h
    rw [List.count_cons]
    by_cases hm : m = m'
    · subst hm
      by_cases hname : p.path m = name <;> simp [hname, h]
    · simp [hm]
  · rename_i h
    rw [if_neg (fun hc => h hc.2.1), Nat.add_zero]

/-- The members whose flag is set are freed, once each. -/
theorem count_cleanup : (cleanup k p).count (.free m name) =
    if p.alloc m = true ∧ p.path m = name then 1 else 0 := by
  have hbefore : (bzLogClose (bzRemovePidfile k { p with effects := [] })).effects.count
      (.free m name) = 0 := by
    rw [List.count_eq_zero, before_free]
    intro hmem
    split at hmem <;> split at hmem <;> simp at hmem
  rw [cleanup, bzPostRun, count_freeIfAlloc, count_freeIfAlloc, count_freeIfAlloc, hbefore]
  cases m with
  | logFile => simp
  | confFile => simp [freeIfAlloc_path]
  | pidFile => simp [freeIfAlloc_path]

/-- What it takes for a clean-up to be in order. -/
theorem undoes_iff (hp : Flagged p) : Undoes k s p ↔
    (p.log ≠ .null → .assignLog ∈ p.effects) ∧
      (k.ok .unlink = true → (p.files (p.path .pidFile)).isSome = true →
        .createPid (p.path .pidFile) ∈ p.effects ∨ .writePid (p.path .pidFile) ∈ p.effects) ∧
      Keeps s.files (bzPostRun k p).files := by
  have hfree : ∀ m name, (cleanup k p).count (.free m name) = p.effects.count (.alloc m name) :=
    fun m name => count_cleanup.trans (hp m name).symm
  constructor
  · rintro ⟨hpid, hlog, -, hkept⟩
    refine ⟨fun hnull => hlog (Or.inr ?_), fun hok hfile => hpid (p.path .pidFile) ?_, hkept⟩
    · rw [mem_cleanup (by simp), before_free, if_pos hnull]
      simp
    · rw [mem_cleanup (by simp), before_free]
      exact List.mem_append_right _ (by rw [if_pos ⟨hok, hfile⟩]; exact List.mem_singleton.mpr rfl)
  · rintro ⟨hlog, hpid, hkept⟩
    refine ⟨fun path hmem => ?_, fun hmem => hlog fun hnull => ?_, hfree, hkept⟩
    · rw [mem_cleanup (by simp), before_free] at hmem
      by_cases hremove : k.ok .unlink = true ∧ (p.files (p.path .pidFile)).isSome = true
      · have hpath : path = p.path .pidFile := by
          rw [if_pos hremove] at hmem
          split at hmem <;> simpa using hmem
        rw [hpath]
        exact hpid hremove.1 hremove.2
      · rw [if_neg hremove] at hmem
        split at hmem <;> simp at hmem
    · rw [mem_cleanup (by simp), mem_cleanup (by simp), before_free] at hmem
      simp only [hnull, ne_eq, not_true_eq_false, if_false, List.nil_append] at hmem
      split at hmem <;> simp at hmem

end

/-! ## The clean-up after a failure -/

section
variable {k : Kernel} {daemonize : Bool} {s : Start} {p : Proc} {path old : Str}

theorem Kernel.OpensPid.pidPath (h : k.OpensPid daemonize s) : k.pidPath s = s.named .pidFile :=
  if_pos h.allocates

/-- The initialisation has changed the pid file at most. -/
theorem Stopped.files_of_ne (hp : Stopped k daemonize s p) (hpath : path ≠ k.pidPath s)
    (hold : s.files path = some old) : p.files path = some old := by
  by_cases hopens : k.OpensPid daemonize s
  · obtain ⟨files, hfiles, heq⟩ := hp.opened hopens
    rw [heq, Function.update_of_ne (hopens.pidPath ▸ hpath)]
    exact hfiles.kept path old hold
  · exact (hp.unopened hopens).kept path old hold

/-- Where it was there before, `bz_write_pidfile` has not made it. -/
theorem Stopped.removes_iff (hp : Stopped k daemonize s p) :
    ((p.files (p.path .pidFile)).isSome = true →
        .createPid (p.path .pidFile) ∈ p.effects ∨ .writePid (p.path .pidFile) ∈ p.effects) ↔
      ¬ k.Finds s (k.pidPath s) := by
  rw [or_iff_left (hp.unwritten _), hp.created, hp.path]
  by_cases hopens : k.OpensPid daemonize s
  · obtain ⟨files, -, heq⟩ := hp.opened hopens
    rw [heq, hopens.pidPath, Function.update_self]
    exact ⟨fun h => (h rfl).2.2, fun h _ => ⟨hopens, rfl, h⟩⟩
  · rw [(hp.unopened hopens).isSome]
    exact ⟨fun h hfound => hopens (h hfound).1, fun h hfound => absurd hfound h⟩

/-- Where it is not removed, it has been emptied if `bz_write_pidfile` has opened it. -/
theorem Stopped.keeps_iff (hp : Stopped k daemonize s p)
    (hunlink : k.ok .unlink = true → ¬ k.Finds s (k.pidPath s)) :
    Keeps s.files (bzPostRun k p).files ↔
      (k.OpensPid daemonize s → ∀ old, s.files (k.pidPath s) = some old → old = []) := by
  have hnone : ∀ {old}, s.files (k.pidPath s) = some old → ¬ k.ok .unlink = true :=
    fun hold hok => hunlink hok (Or.inl (by rw [hold]; rfl))
  rw [bzPostRun_files, hp.path]
  constructor
  · intro h hopens old hold
    obtain ⟨records, hkept⟩ := h _ old hold
    obtain ⟨files, -, heq⟩ := hp.opened hopens
    rw [if_neg (fun hc => hnone hold hc.1), heq, hopens.pidPath, Function.update_self] at hkept
    exact (List.append_eq_nil_iff.mp (Option.some.inj hkept).symm).1
  · intro h path old hold
    by_cases hpath : path = k.pidPath s
    · subst hpath
      rw [if_neg fun hc => hnone hold hc.1]
      by_cases hopens : k.OpensPid daemonize s
      · obtain ⟨files, -, heq⟩ := hp.opened hopens
        rw [h hopens old hold, heq, hopens.pidPath, Function.update_self]
        exact ⟨[], rfl⟩
      · exact ⟨[], by rw [(hp.unopened hopens).kept _ old hold, List.append_nil]⟩
    · refine ⟨[], ?_⟩
      rw [List.append_nil, ← hp.files_of_ne hpath hold]
      split
      · exact Function.update_of_ne hpath _ _
      · rfl

/-- **The clean-up after a failure.** It undoes only what was done if and only
if an allocation that failed has not left `bz->log` as a wild pointer, no file is at
the name that it can remove when `bz_write_pidfile` is reached, and the `open` there
has not emptied one. -/
theorem cleanup_undoes_iff (hfail : bzInitInstance k daemonize s.proc = .error p) :
    Undoes k s p ↔
      (k.Allocates s ∨ s.garbage = false) ∧
        (k.ok .unlink = true → ¬ k.Finds s (k.pidPath s)) ∧
        (k.OpensPid daemonize s → ∀ old, s.files (k.pidPath s) = some old → old = []) := by
  have hp := stopped_of_error hfail
  rw [undoes_iff hp.flagged]
  refine and_congr ?_ ?_
  · by_cases hall : k.Allocates s
    · exact iff_of_true (fun _ => hp.assigned hall) (Or.inl hall)
    · obtain ⟨hun, hlog⟩ := hp.unassigned hall
      rw [or_iff_right hall, hlog]
      show ((if s.garbage then LogPtr.wild else LogPtr.null) ≠ .null → _) ↔ _
      cases s.garbage with
      | false => exact iff_of_true (fun h => absurd rfl h) rfl
      | true => exact iff_of_false (fun h => hun (h nofun)) (by decide)
  · rw [imp_congr_right fun _ => hp.removes_iff]
    exact and_congr_right fun hunlink => hp.keeps_iff hunlink

end

/-- A start with the pid file of a running instance in place. -/
def secondStart : Start where
  prefixDir := [47]
  path m := [47, if m = .logFile then 108 else if m = .confFile then 99 else 112]
  garbage := false
  files := fun path => if path = [47, 112] then some [49, 10] else none
  fds := ⟨[]⟩
  ignored _ := false
  prefixDir_ne := List.cons_ne_nil _ _

/-- The kernel has no process left. -/
def noProcess : Kernel where
  ok _ := true
  fork := .failed
  forkAgain := .failed
  getpid := 7

theorem cleanup_undoes_iff_secondStart : ∃ p,
    bzInitInstance noProcess true secondStart.proc = .error p ∧
      (Undoes noProcess secondStart p ↔
        (noProcess.Allocates secondStart ∨ secondStart.garbage = false) ∧
          (noProcess.ok .unlink = true →
            ¬ noProcess.Finds secondStart (noProcess.pidPath secondStart)) ∧
          (noProcess.OpensPid true secondStart →
            ∀ old, secondStart.files (noProcess.pidPath secondStart) = some old → old = [])) :=
  ⟨_, rfl, cleanup_undoes_iff rfl⟩

/-- The second start cannot fork, and removes the pid file of the first one. -/
theorem not_cleanup_undoes : ¬ ∀ (k : Kernel) (daemonize : Bool) (s : Start) (p : Proc),
    bzInitInstance k daemonize s.proc = .error p → Undoes k s p := by
  intro h
  have hundoes := h noProcess true secondStart _ rfl
  have hmade := hundoes.pidfile [47, 112] (by decide)
  exact absurd hmade (by decide)

end Bitzer
