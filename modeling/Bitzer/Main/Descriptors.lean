import Bitzer.Main.Pidfile
import Bitzer.Main.Streams

/-!
# The descriptors beyond the standard ones

Where the log's descriptor leads in every state of a run, what else is open beyond the
standard descriptors, and which of that the tasks inherit: nothing is opened with
`O_CLOEXEC`, and a child closes only what it has opened.
-/

namespace Bitzer

open Lib

section
variable {k : Kernel} {daemonize : Bool} {s : Start} {p : Proc} {n : Nat}

/-! ## The initialisation -/

/-- `bz->log` writes to the descriptor that `bz_log_create` has opened. -/
theorem bzInitInstance_log (k : Kernel) (daemonize : Bool) (s : Start) :
    (bzInitInstance k daemonize s.proc).Ends (fun p => p.log = .log s.fds.lowestFree)
      (fun _ => True) := by
  have hfail : ∀ {F : Proc → Prop} (p : Proc), F p → True := fun _ _ => trivial
  refine ((Naming.start.step List.not_mem_nil).mono (fun p hp => hp.2) hfail).andThen
    fun p hp => ?_
  refine ((hp.step (by decide)).mono (fun p hp => hp.2) hfail).andThen fun p hp => ?_
  refine ((hp.step (by decide)).mono (fun p hp => hp.2) hfail).andThen fun p hp => ?_
  have hname : p.path .logFile ≠ [] := by
    rw [hp.path, if_pos (by decide)]
    exact s.named_ne _
  have hfds : p.fds = s.fds := by rw [hp.frame]; rfl
  refine ((bzLogCreate_ends hname).mono (fun q hq => ?_) hfail).andThen
    (D := fun q => q.log = .log s.fds.lowestFree) fun q hq => ?_
  · rw [hq.2, ← hfds]
  refine Exit.Ends.andThen (D := fun q => q.log = .log s.fds.lowestFree) ?_ fun q hq => ?_
  · refine .ite (fun _ => bzDaemonize_ends.mono (fun r hr => ?_) hfail) fun _ => hq
    rw [hr.2, hq]
  refine Exit.Ends.andThen (D := fun q => q.log = .log s.fds.lowestFree) ?_ fun q hq => ?_
  · refine .ite (fun _ => bzRedirectIo_ends.mono (fun r hr => ?_) hfail) fun _ => hq
    rw [hr.2, ← hq]
  refine Exit.Ends.andThen (D := fun q => q.log = .log s.fds.lowestFree) ?_ fun q hq => ?_
  · refine sigactions_ends.mono (fun r hr => ?_) hfail
    rw [hr.2, ← hq]
  refine bzWritePidfile_ends.mono (fun r hr => ?_) hfail
  rw [hr.2, ← hq]

/-- It leads to the log, also where it is a standard one and these were redirected. -/
theorem get_fds_log (h : Completed k daemonize s p) :
    (k.fds daemonize s).get s.fds.lowestFree = some (.file (s.named .logFile)) := by
  have hlog : s.logFds.get s.fds.lowestFree = some (.file (s.named .logFile)) := by
    rw [Start.logFds, Fds.get_openAs, if_pos rfl]
  cases daemonize with
  | false => exact hlog
  | true =>
      by_cases hlt : s.fds.lowestFree < 3
      · have hne : s.fds.lowestFree ≠ s.logFds.lowestFree := by
          intro heq
          rw [heq, Fds.get_lowestFree] at hlog
          cases hlog
        rw [get_redirected (h.opensPid.daemonizes rfl).2 hlt, if_neg hne]
      · exact (Fds.get_redirect_of_le (Nat.not_lt.mp hlt)).trans hlog

/-- Of what the initialisation opens, only the log stays open. -/
theorem get_fds_of_le (hn : 3 ≤ n) : (k.fds daemonize s).get n = s.logFds.get n := by
  cases daemonize with
  | false => rfl
  | true => exact Fds.get_redirect_of_le hn

/-! ## The end -/

theorem bzPostRun_log : (bzPostRun k p).log = p.log := by
  rw [bzPostRun, freeIfAlloc_frame, freeIfAlloc_frame, freeIfAlloc_frame, bzLogClose_frame,
    bzRemovePidfile_frame]

theorem bzPostRun_fds {fd : Nat} (h : p.log = .log fd) :
    (bzPostRun k p).fds = if 0 < fd ∧ fd ≠ 2 then p.fds.close fd else p.fds := by
  have hlog : (bzRemovePidfile k p).log = .log fd := bzRemovePidfile_log.trans h
  have hopen : LogPtr.log fd ≠ .null := by simp
  have hfds : (bzRemovePidfile k p).fds = p.fds := by rw [bzRemovePidfile_frame]
  rw [bzPostRun, freeIfAlloc_frame, freeIfAlloc_frame, freeIfAlloc_frame]
  show (bzLogClose (bzRemovePidfile k p)).fds = _
  rw [bzLogClose, hlog, if_pos hopen, hfds]

/-- `bz_log_close` closes what was opened for the log, beyond the standard descriptors. -/
theorem get_bzPostRun (h : p.log = .log s.fds.lowestFree) (hn : 3 ≤ n)
    (hfds : p.fds.get n = s.logFds.get n) : (bzPostRun k p).fds.get n = s.fds.get n := by
  rw [bzPostRun_fds h]
  rw [Start.logFds, Fds.get_openAs] at hfds
  by_cases hfree : n = s.fds.lowestFree
  · rw [if_pos (by omega), Fds.close, hfree, Fds.get_set_self, Fds.get_lowestFree]
  · rw [if_neg hfree] at hfds
    split
    · exact (Fds.get_set_of_ne hfree).trans hfds
    · exact hfds

end

/-! ## The children -/

theorem get_taskRedirectIo {ok : ChildCall → Bool} {prefixDir name : Str} {c : ChildProc} {n : Nat}
    (hn : 3 ≤ n) : (taskRedirectIo ok prefixDir name c).2.fds.get n = c.fds.get n := by
  unfold taskRedirectIo
  split
  · dsimp only
    split
    · exact Fds.get_redirect_of_le hn
    · rfl
  · rfl

section
variable {τ : Type}

theorem get_taskRunChild {L : Launch τ} {w : Whole τ} {t : τ} {ok : ChildCall → Bool}
    {prog : Program} {n : Nat} (hexec : L.taskRunChild w t ok = some prog) (hn : 3 ≤ n) :
    prog.fds.get n = w.proc.fds.get n := by
  obtain ⟨ctx, -, hchild⟩ := Option.bind_eq_some_iff.mp hexec
  obtain ⟨c, hpre, rfl⟩ := Option.map_eq_some_iff.mp hchild
  show c.fds.get n = _
  rw [(taskPreRun_some hpre).1, get_taskRedirectIo hn]
  rfl

variable [DecidableEq τ]

/-- The log's descriptor, and the others beyond the standard ones. -/
structure LogKept (L : Launch τ) (w : Whole τ) : Prop where
  log : w.proc.log = .log L.start.fds.lowestFree
  closed : w.sup.logOpen = false → ∀ n, 3 ≤ n → w.proc.fds.get n = L.start.fds.get n

variable {L : Launch τ} {w w' : Whole τ} {i : Input}

theorem LogKept.step (h : LogKept L w) (hk : Kept L w) (hstep : L.step w i = some w') :
    LogKept L w' := by
  obtain ⟨-, ⟨hpc, -, hproc⟩ | ⟨hlog, hproc⟩⟩ := proc_of_step hstep
  · refine ⟨by rw [hproc, bzPostRun_log, h.log], fun _ n hn => ?_⟩
    have hfds := (hk.fds (hk.logOpen hpc) n).trans ((completed_of_ok L.init_ok).fds n)
    rw [hproc]
    exact get_bzPostRun h.log hn (hfds.trans (get_fds_of_le hn))
  · refine ⟨?_, fun hclosed n hn => ?_⟩
    · rcases hproc with hproc | hproc <;> rw [hproc] <;> exact h.log
    · have hfds := h.closed (hlog ▸ hclosed) n hn
      rcases hproc with hproc | hproc
      · rw [hproc]
        exact Fds.get_openAs_close.trans hfds
      · rw [hproc]
        exact hfds

theorem logKept_reach (hw : Reach L.step anyInput L.whole w) : LogKept L w := by
  have hinit := bzInitInstance_log L.kernel L.daemonize L.start
  rw [L.init_ok] at hinit
  exact kept_invariant hw ⟨hinit, nofun⟩ fun w i w' hk hp hs => hp.step hk hs

/-- **The descriptors beyond the standard ones.** Until `bz_post_run`, `bz->log` writes to
a descriptor that is open on the log, and of what bitzer has opened only that one is
still open; behind it, none is. A program that is started, at the first start or at a
restart and whatever fails in its child, has the log's descriptor and what bitzer was
started with. -/
theorem descriptors_of_run (hw : Reach L.step anyInput L.whole w) :
    w.proc.log = .log L.start.fds.lowestFree ∧
    (w.sup.logOpen = true →
      w.proc.fds.get L.start.fds.lowestFree = some (.file (L.start.named .logFile)) ∧
      ∀ n, 3 ≤ n → w.proc.fds.get n = L.start.logFds.get n) ∧
    (w.sup.logOpen = false → ∀ n, 3 ≤ n → w.proc.fds.get n = L.start.fds.get n) ∧
    ∀ t caller ok prog, w.sup.pc = .fork t caller → L.taskRunChild w t ok = some prog →
      ∀ n, 3 ≤ n → prog.fds.get n = L.start.logFds.get n := by
  have hkept := logKept_reach hw
  have hopen : w.sup.logOpen = true → ∀ n, w.proc.fds.get n =
      (L.kernel.fds L.daemonize L.start).get n := fun ho n =>
    ((kept_reach hw).fds ho n).trans ((completed_of_ok L.init_ok).fds n)
  refine ⟨hkept.log, fun ho => ⟨?_, fun n hn => ?_⟩, hkept.closed, ?_⟩
  · exact (hopen ho _).trans (get_fds_log (completed_of_ok L.init_ok))
  · exact (hopen ho n).trans (get_fds_of_le hn)
  · intro t caller ok prog hpc hexec n hn
    rw [get_taskRunChild hexec hn, get_fds_fork hw hpc, get_fds_of_le hn]

end

/-- With the standard descriptors open, the tasks have the log on descriptor 3. -/
theorem descriptors_of_run_log : ∃ (w : Whole Nat) (prog : Program),
    (shellLaunch ⟨[some (.other 0), some (.other 0), some (.other 0)]⟩
      fun _ => false).taskRunChild w 0 (fun _ => true) = some prog ∧
      prog.fds.get 3 = some (.file [47, 108]) := by
  obtain ⟨w, prog, hw, hpc, hexec⟩ := first_child
    (L := shellLaunch ⟨[some (.other 0), some (.other 0), some (.other 0)]⟩ fun _ => false) rfl rfl
  obtain ⟨-, -, -, hprog⟩ := descriptors_of_run hw
  exact ⟨w, prog, hexec, (hprog _ _ _ prog hpc hexec 3 (by decide)).trans (by decide)⟩

end Bitzer
