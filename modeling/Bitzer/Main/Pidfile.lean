import Bitzer.Context.Exit
import Bitzer.Main.Child
import Bitzer.Main.Options

/-!
# The pid file

From the command line to the pid file: where a run of bitzer keeps it, what is in it,
and which ways out of the process leave it behind. Nothing stops the log or the log of
a task from having the same name, so that the runs here are interleaved with what is
written to the files.
-/

namespace Bitzer

open Lib

/-- What `bz_write_pidfile` writes. -/
def pidText (pid : Int32) : Str := decimal pid ++ [10]

/-! ## The number -/

section
variable {k : Kernel} {daemonize : Bool} {s : Start} {p : Proc}

end

/-- Only `bz_post_run` closes the log. -/
theorem logOpen_kept {τ : Type} [DecidableEq τ] {cfg : Config τ} {σ σ' : State τ} {i : Input}
    (h : Step cfg σ i σ') (hpost : ¬ (σ.pc = .postRun ∧ i.isSys = true)) :
    σ'.logOpen = σ.logOpen := by
  cases h with
  | create =>
      unfold contextCreate
      split <;> rfl
  | @forked t caller p => exact (sameControl_taskRunForked cfg caller t p σ).logOpen
  | @reap c => exact (sameControl_reaped cfg c σ).logOpen
  | post hp => exact absurd ⟨hp, rfl⟩ hpost
  | deliver => exact deliver_logOpen ..
  | start => exact (sameControl_taskRun _ _ σ).logOpen
  | goto | load | assign | setCallback | mask | forkFailed | enter | close | childExit
  | adopt | raise => rfl

section
variable {τ : Type} [DecidableEq τ] {L : Launch τ} {w w' : Whole τ} {i : Input}

/-- What a step does to the process beside the supervisor. -/
theorem proc_of_step (hstep : L.step w i = some w') :
    next L.env.cfg w.sup i = some w'.sup ∧
      ((w.sup.pc = .postRun ∧ w'.sup.logOpen = false ∧ w'.proc = bzPostRun L.kernel w.proc) ∨
        (w'.sup.logOpen = w.sup.logOpen ∧ (w'.proc = confMmap w.proc ∨ w'.proc = w.proc))) := by
  obtain ⟨σ, hguarded, rfl⟩ := Option.map_eq_some_iff.mp hstep
  obtain ⟨-, hnext⟩ := guarded_eq_some_iff.mp hguarded
  refine ⟨hnext, ?_⟩
  by_cases hpost : w.sup.pc = .postRun ∧ i.isSys = true
  · refine Or.inl ⟨hpost.1, ?_, ?_⟩
    · cases i with
      | sys a => exact logOpen_postRun hpost.1 hnext
      | childExit | adopt | raise | deliver => cases hpost.2
    · show (if _ then _ else _) = _
      rw [if_neg (fun hc => by rw [hpost.1] at hc; cases hc.1), if_pos hpost]
  · refine Or.inr ⟨logOpen_kept (step_of_next hnext) hpost, ?_⟩
    show (if _ then _ else _) = _ ∨ (if _ then _ else _) = _
    rw [if_neg hpost]
    split
    · exact Or.inl rfl
    · exact Or.inr rfl

/-- When `bz_post_run` is called, the log is open. -/
theorem Kept.logOpen (h : Kept L w) (hpc : w.sup.pc = .postRun) : w.sup.logOpen = true := by
  have hctl := ctl_reach h.sup.any
  unfold Ctl at hctl
  rw [hpc] at hctl
  exact hctl.2

/-- An invariant beside `Kept`. -/
theorem kept_invariant {P : Whole τ → Prop} (hw : Reach L.step anyInput L.whole w)
    (hstart : P L.whole) (hstep : ∀ w i w', Kept L w → P w → L.step w i = some w' → P w') :
    P w := by
  have hall : Kept L w ∧ P w := by
    refine hw.invariant (P := fun w => Kept L w ∧ P w)
      ⟨⟨.refl, rfl, nofun, fun _ _ => rfl, rfl⟩, hstart⟩ ?_
    rintro w i w' - ⟨hk, hp⟩ - hs
    exact ⟨hk.step hs, hstep w i w' hk hp hs⟩
  exact hall.2

end

/-! ## What is written to the files -/

/-- A step of bitzer, or something that is written meanwhile: through a descriptor of
bitzer's log, or by a task whose streams are on its own log. -/
inductive Move (τ : Type) where
  | step (i : Input)
  | record (text : Str)
  | output (t : τ) (text : Str)

section
variable {τ : Type} [DecidableEq τ]

/-- The log of a task. -/
def Launch.outputPath (L : Launch τ) (t : τ) : Str :=
  taskLogPath L.start.prefixDir ((L.env.cfg.task t).name.getD [])

/-- The tasks that `task_run` starts. -/
def Launch.Starts (L : Launch τ) (t : τ) : Prop :=
  t ∈ L.env.cfg.tasks ∧ (L.env.cfg.task t).runnable = true

instance (L : Launch τ) (t : τ) : Decidable (L.Starts t) := inferInstanceAs (Decidable (_ ∧ _))

/-- Both logs are opened with `O_APPEND`, that of a task also with `O_CREAT`; a log that has been
removed is written to, but no more found. -/
def Launch.move (L : Launch τ) (w : Whole τ) : Move τ → Option (Whole τ)
  | .step i => L.step w i
  | .record text =>
      let path := L.start.named .logFile
      let files := Function.update w.proc.files path ((w.proc.files path).map (· ++ text))
      some { w with proc := { w.proc with files := files } }
  | .output t text =>
      let path := L.outputPath t
      let files := Function.update w.proc.files path (some ((w.proc.files path).getD [] ++ text))
      if L.Starts t then some { w with proc := { w.proc with files := files } } else none

/-- The file is one of the logs. -/
def Launch.Logs (L : Launch τ) (path : Str) : Prop :=
  path = L.start.named .logFile ∨ ∃ t, L.Starts t ∧ path = L.outputPath t

/-- The pid file, before `bz_post_run` and behind it. -/
structure PidKept (L : Launch τ) (w : Whole τ) : Prop where
  path : w.sup.logOpen = true → w.proc.path .pidFile = L.start.named .pidFile
  held : w.sup.logOpen = true ∨ L.kernel.ok .unlink = false →
    ∃ rest, w.proc.files (L.start.named .pidFile) = some (pidText L.kernel.getpid ++ rest) ∧
      (¬ L.Logs (L.start.named .pidFile) → rest = [])
  removed : w.sup.logOpen = false → L.kernel.ok .unlink = true →
    (∀ t, L.Starts t → L.outputPath t ≠ L.start.named .pidFile) →
    w.proc.files (L.start.named .pidFile) = none
  status : w.sup.pc = .exiting 1 → w.sup.logOpen = false

variable {L : Launch τ} {w w' : Whole τ} {i : Input}

/-- What is written is added to a file of that name, if there is one. -/
theorem move_files {m : Move τ} (hmove : L.move w m = some w') (hm : ∀ i, m ≠ .step i) :
    ∃ files, w' = { w with proc := { w.proc with files := files } } ∧
      (∀ path old, w.proc.files path = some old → ∃ text, files path = some (old ++ text) ∧
        (¬ L.Logs path → text = [])) ∧
      ∀ path, w.proc.files path = none → (∀ t, L.Starts t → L.outputPath t ≠ path) →
        files path = none := by
  cases m with
  | step i => exact absurd rfl (hm i)
  | record text =>
      refine ⟨_, (Option.some.inj hmove).symm, fun path old hold => ?_, fun path hnone _ => ?_⟩
      · by_cases hpath : path = L.start.named .logFile
        · subst hpath
          refine ⟨text, ?_, fun hno => absurd (Or.inl rfl) hno⟩
          rw [Function.update_self, hold]
          rfl
        · exact ⟨[], by rw [Function.update_of_ne hpath, hold, List.append_nil], fun _ => rfl⟩
      · by_cases hpath : path = L.start.named .logFile
        · subst hpath
          rw [Function.update_self, hnone]
          rfl
        · rw [Function.update_of_ne hpath, hnone]
  | output t text =>
      obtain ⟨hstarts, hw'⟩ := Option.ite_none_right_eq_some.mp hmove
      refine ⟨_, (Option.some.inj hw').symm, fun path old hold => ?_, fun path hnone hother => ?_⟩
      · by_cases hpath : path = L.outputPath t
        · subst hpath
          refine ⟨text, ?_, fun hno => absurd (Or.inr ⟨t, hstarts, rfl⟩) hno⟩
          rw [Function.update_self, hold]
          rfl
        · exact ⟨[], by rw [Function.update_of_ne hpath, hold, List.append_nil], fun _ => rfl⟩
      · rw [Function.update_of_ne (hother t hstarts).symm, hnone]

theorem PidKept.step (h : PidKept L w) (hopen : w.sup.pc = .postRun → w.sup.logOpen = true)
    (hstep : L.step w i = some w') : PidKept L w' := by
  obtain ⟨hnext, hproc⟩ := proc_of_step hstep
  have hstatus : w'.sup.pc = .exiting 1 → w'.sup.logOpen = false := by
    intro hpc
    obtain ⟨-, -, hlog⟩ | ⟨-, h₂, -⟩ | ⟨hp, -, hlog⟩ := exiting_of_step (step_of_next hnext) hpc
    · exact hlog
    · cases h₂
    · rw [hlog]
      exact h.status hp
  rcases hproc with ⟨hpc, hclosed, hproc⟩ | ⟨hlog, hproc⟩
  · -- `bz_post_run` removes what the path still names
    have hlog := hopen hpc
    obtain ⟨rest, hfile, hrest⟩ := h.held (Or.inl hlog)
    have hpost : w'.proc.files = if L.kernel.ok .unlink = true then
        Function.update w.proc.files (L.start.named .pidFile) none else w.proc.files := by
      rw [hproc, bzPostRun_files, h.path hlog, hfile]
      exact if_congr (and_iff_left rfl) rfl rfl
    refine ⟨fun ho => absurd ho (by rw [hclosed]; decide), fun hkeep => ?_,
      fun _ hunlink _ => ?_, hstatus⟩
    · have hno := hkeep.resolve_left (by rw [hclosed]; decide)
      rw [hpost, if_neg (by rw [hno]; decide)]
      exact ⟨rest, hfile, hrest⟩
    · rw [hpost, if_pos hunlink]
      exact Function.update_self ..
  · have hsame : w'.proc.path = w.proc.path ∧ w'.proc.files = w.proc.files := by
      rcases hproc with hproc | hproc <;> rw [hproc] <;> exact ⟨rfl, rfl⟩
    refine ⟨fun ho => ?_, fun hkeep => ?_, fun hclosed hunlink hother => ?_, hstatus⟩
    · rw [hsame.1]
      exact h.path (hlog ▸ ho)
    · rw [hsame.2]
      exact h.held (hlog ▸ hkeep)
    · rw [hsame.2]
      exact h.removed (hlog ▸ hclosed) hunlink hother

theorem PidKept.written {m : Move τ} (h : PidKept L w) (hmove : L.move w m = some w')
    (hm : ∀ i, m ≠ .step i) : PidKept L w' := by
  obtain ⟨files, rfl, hkeep, hnone⟩ := move_files hmove hm
  refine ⟨h.path, fun hheld => ?_, fun hclosed hunlink hother => ?_, h.status⟩
  · obtain ⟨rest, hfile, hrest⟩ := h.held hheld
    obtain ⟨text, htext, hlogs⟩ := hkeep _ _ hfile
    refine ⟨rest ++ text, by rw [← List.append_assoc]; exact htext, fun hno => ?_⟩
    rw [hrest hno, hlogs hno]
    rfl
  · exact hnone _ (h.removed hclosed hunlink hother) hother

end

end Bitzer
