import Bitzer.Main.Child

/-!
# The standard streams of the tasks

Which file a task finds on its standard descriptors. `task_redirect_io` closes
the descriptor that it has opened, also where this is one of the three, and
`task_pre_run` goes on when it fails.
-/

namespace Bitzer

open Lib

variable {ok : ChildCall → Bool} {c c' : ChildProc} {prefixDir name : Str} {m : Nat}

/-- `task_redirect_io` gives the standard descriptor `m` to the log, where they
are all open. -/
def Redirected (ok : ChildCall → Bool) (m : Nat) : Prop :=
  ok .malloc = true ∧ ok .openLog = true ∧ ∀ i ≤ m, ok (.dup2 i) = true

/-- What `task_redirect_io` leaves on the standard descriptors. -/
theorem taskRedirectIo_iff (log : OpenFile) (hpath : c.logPath = none)
    (hlog : log = .file (taskLogPath prefixDir name)) :
    (∀ m < 3, (taskRedirectIo ok prefixDir name c).2.fds.get m = some log) ↔
      (∀ m < 3, c.fds.get m ≠ none) ∧ ∀ m < 3, Redirected ok m ∨ c.fds.get m = some log := by
  have hsame (hno : ¬ (ok .malloc = true ∧ ok .openLog = true)) :
      (∀ m < 3, c.fds.get m = some log) ↔
        (∀ m < 3, c.fds.get m ≠ none) ∧ ∀ m < 3, Redirected ok m ∨ c.fds.get m = some log := by
    constructor
    · intro h
      exact ⟨fun m hm => by rw [h m hm]; exact Option.some_ne_none _, fun m hm => Or.inr (h m hm)⟩
    · rintro ⟨-, h⟩ m hm
      exact (h m hm).resolve_left fun hr => hno ⟨hr.1, hr.2.1⟩
  subst hlog
  unfold taskRedirectIo
  rw [hpath]
  split
  · rename_i hmalloc
    dsimp only
    split
    · rename_i hopen
      have hm : ok .malloc = true := by simpa using hmalloc
      simp only [Redirected, hm, hopen, true_and]
      exact Fds.redirect_iff
    · rename_i hopen
      exact hsame fun h => hopen h.2
  · rename_i hmalloc
    exact hsame fun h => hmalloc (by simp [h.1])

/-- A task's log file. -/
def Whole.taskLog {τ : Type} (w : Whole τ) (t : τ) : OpenFile :=
  .file (taskLogPath w.proc.prefixDir ((w.sup.task t).name.getD []))

/-! ## The descriptors that the children inherit -/

/-- At most one of the standard descriptors is closed. -/
def Start.MostlyOpen (s : Start) : Prop :=
  ∀ i < 3, ∀ j < 3, s.fds.get i = none → s.fds.get j = none → i = j

/-- What the initialisation leaves on the standard descriptor `m`, where it
leaves it open. -/
def Start.standard (s : Start) (daemonize : Bool) (m : Nat) : Option OpenFile :=
  if daemonize = true ∨ m = s.fds.lowestFree then some (.file (s.named .logFile))
  else s.fds.get m

section
variable {k : Kernel} {daemonize : Bool} {s : Start} {p : Proc}

theorem get_redirected (h : k.Redirects s.logFds) (hm : m < 3) :
    (k.fds true s).get m =
      if m = s.logFds.lowestFree then none else some (.file (s.named .logFile)) := by
  have hturn : ∀ i ≤ m, i = s.logFds.lowestFree ∨ k.ok (.dup2 i) = true := by
    intro i hi
    exact h.2.1 i (by simp only [Fds.std, List.mem_cons, List.not_mem_nil]; omega)
  exact (Fds.get_redirect hm).trans (if_congr Iff.rfl rfl (if_pos hturn))

theorem fds_open_iff (h : Completed k daemonize s p) :
    (∀ m < 3, (k.fds daemonize s).get m ≠ none) ↔ s.MostlyOpen := by
  rw [Start.MostlyOpen, ← Fds.openAs_open_iff (a := .file (s.named .logFile))]
  cases daemonize with
  | false => rfl
  | true =>
      rw [← Fds.le_lowestFree_iff (t := s.fds.openAs _)]
      constructor
      · intro hopen
        by_contra hlt
        have hnone := hopen _ (Nat.not_le.mp hlt)
        rw [get_redirected (h.opensPid.daemonizes rfl).2 (Nat.not_le.mp hlt)] at hnone
        exact hnone (if_pos rfl)
      · intro hle m hm
        have hne : m ≠ s.logFds.lowestFree := Nat.ne_of_lt (Nat.lt_of_lt_of_le hm hle)
        rw [get_redirected (h.opensPid.daemonizes rfl).2 hm, if_neg hne]
        exact Option.some_ne_none _

theorem get_fds (h : Completed k daemonize s p) (hopen : s.MostlyOpen) (hm : m < 3) :
    (k.fds daemonize s).get m = s.standard daemonize m := by
  have hne := (fds_open_iff h).mpr hopen m hm
  unfold Start.standard
  cases daemonize with
  | false =>
      rw [if_congr (or_iff_right Bool.false_ne_true) rfl rfl]
      exact Fds.get_openAs
  | true =>
      rw [get_redirected (h.opensPid.daemonizes rfl).2 hm] at hne ⊢
      rw [if_pos (Or.inl rfl), if_neg (fun heq => hne (if_pos heq))]

end

/-! ## The tasks -/

variable {τ : Type}

/-- What is on a child's standard descriptors, by the descriptors at its `fork`. -/
theorem taskRunChild_streams_iff {L : Launch τ} {w : Whole τ} {t : τ} {prog : Program}
    (hexec : L.taskRunChild w t ok = some prog) :
    (∀ m < 3, prog.fds.get m = some (w.taskLog t)) ↔
      (∀ m < 3, w.proc.fds.get m ≠ none) ∧
        ∀ m < 3, Redirected ok m ∨ w.proc.fds.get m = some (w.taskLog t) := by
  obtain ⟨ctx, -, hchild⟩ := Option.bind_eq_some_iff.mp hexec
  obtain ⟨c, hpre, rfl⟩ := Option.map_eq_some_iff.mp hchild
  show (∀ m < 3, c.fds.get m = _) ↔ _
  rw [(taskPreRun_some hpre).1, taskRedirectIo_iff (w.taskLog t) rfl rfl]
  rfl

variable [DecidableEq τ]

/-- The descriptors at a `fork` are those that the initialisation has left. -/
theorem get_fds_fork {L : Launch τ} {w : Whole τ} {t : τ} {caller : Caller τ}
    (hw : Reach L.step anyInput L.whole w) (hpc : w.sup.pc = .fork t caller) (n : Nat) :
    w.proc.fds.get n = (L.kernel.fds L.daemonize L.start).get n :=
  ((kept_reach hw).fds (running_fork hw hpc).logOpen n).trans ((completed_of_ok L.init_ok).fds n)

/-- **The standard streams of a task.** A program that is started has them all
on its task's log file if and only if bitzer was started with at most one of
them closed, and each was given to the log, or was on it already. -/
theorem standard_streams_iff {L : Launch τ} {w : Whole τ} {t : τ} {caller : Caller τ}
    {ok : ChildCall → Bool} {prog : Program} (hw : Reach L.step anyInput L.whole w)
    (hpc : w.sup.pc = .fork t caller) (hexec : L.taskRunChild w t ok = some prog) :
    (∀ m < 3, prog.fds.get m = some (w.taskLog t)) ↔
      L.start.MostlyOpen ∧
        ∀ m < 3, Redirected ok m ∨ L.start.standard L.daemonize m = some (w.taskLog t) := by
  have hdone := completed_of_ok L.init_ok
  rw [taskRunChild_streams_iff hexec]
  simp only [get_fds_fork hw hpc]
  rw [fds_open_iff hdone]
  refine and_congr_right fun hopen => forall_congr' fun m => forall_congr' fun hm => ?_
  rw [get_fds hdone hopen hm]

/-- Descriptor 2 is the only standard descriptor that is open. -/
def stderrOnly : Fds OpenFile := ⟨[none, none, some (.other 0)]⟩

theorem standard_streams_iff_stderrOnly : ∃ (w : Whole Nat) (prog : Program),
    (shellLaunch stderrOnly fun _ => false).taskRunChild w 0 (fun _ => true) = some prog ∧
      ((∀ m < 3, prog.fds.get m = some (w.taskLog 0)) ↔
        (shellStart stderrOnly fun _ => false).MostlyOpen ∧
          ∀ m < 3, Redirected (fun _ => true) m ∨
            (shellStart stderrOnly fun _ => false).standard false m = some (w.taskLog 0)) := by
  obtain ⟨w, prog, hw, hpc, hexec⟩ :=
    first_child (L := shellLaunch stderrOnly fun _ => false) rfl rfl
  exact ⟨w, prog, hexec, standard_streams_iff hw hpc hexec⟩

/-- With two of them closed, the descriptor that `task_redirect_io` opens and
closes is a standard one. -/
theorem not_standard_streams : ¬ ∀ (L : Launch Nat) (w : Whole Nat) (t : Nat) (caller : Caller Nat)
    (ok : ChildCall → Bool) (prog : Program), Reach L.step anyInput L.whole w →
    w.sup.pc = .fork t caller → L.taskRunChild w t ok = some prog →
    ∀ m < 3, prog.fds.get m = some (w.taskLog t) := by
  intro h
  obtain ⟨w, prog, hw, hpc, hexec⟩ :=
    first_child (L := shellLaunch stderrOnly fun _ => false) rfl rfl
  have hstreams := (taskRunChild_streams_iff hexec).mp (h _ w _ _ _ prog hw hpc hexec)
  have hclosed := hstreams.1 1 (by decide)
  rw [get_fds_fork hw hpc] at hclosed
  exact hclosed rfl

end Bitzer
