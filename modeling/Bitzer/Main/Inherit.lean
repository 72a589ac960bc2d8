import Bitzer.Main.Child

/-!
# The signals of the tasks

The mask and the dispositions that a task's program begins with. The mask is
put back by `task_pre_run`; of the dispositions only what `exec` resets is.
-/

namespace Bitzer

open Lib

/-- The nine dispositions that `signal_init` sets. -/
theorem installed_signals (d : Signo → Disposition) (s : Signo) :
    installed signals d s =
      match s with
      | .handled _ => .handler
      | .pipe => .ignore
      | .other n => d (.other n) := by
  cases s with
  | handled s => cases s <;> rfl
  | pipe => rfl
  | other n => rfl

theorem Disposition.exec_eq {d : Disposition} (h : d ≠ .handler) : d.exec = d := by
  cases d with
  | default => rfl
  | ignore => rfl
  | handler => exact absurd rfl h

/-- A handled signal is at its default after `exec`, also where it was ignored,
and `SIGPIPE` stays ignored. -/
theorem exec_installed_iff {d : Signo → Disposition} (hd : ∀ s, d s ≠ .handler) :
    (∀ s, (installed signals d s).exec = d s) ↔
      d .pipe = .ignore ∧ ∀ s, d (.handled s) = .default := by
  simp only [installed_signals]
  constructor
  · intro h
    exact ⟨(h .pipe).symm, fun s => (h (.handled s)).symm⟩
  · rintro ⟨hpipe, hhandled⟩ s
    cases s with
    | handled s => exact (hhandled s).symm
    | pipe => exact hpipe.symm
    | other n => exact Disposition.exec_eq (hd (.other n))

variable {τ : Type} {L : Launch τ} {w : Whole τ} {t : τ} {ok : ChildCall → Bool} {prog : Program}

/-- What a program inherits, by the process at its `fork`. -/
theorem taskRunChild_signals (hexec : L.taskRunChild w t ok = some prog) :
    (∃ ctx, w.sup.ctx = some ctx ∧ prog.mask = w.saved ctx) ∧
      prog.disposition = fun s => (w.proc.disposition s).exec := by
  obtain ⟨ctx, hctx, hchild⟩ := Option.bind_eq_some_iff.mp hexec
  obtain ⟨c, hpre, rfl⟩ := Option.map_eq_some_iff.mp hchild
  obtain ⟨-, hmask, hdisp⟩ := taskPreRun_some hpre
  refine ⟨⟨ctx, hctx, hmask⟩, ?_⟩
  show (fun s => (c.disposition s).exec) = _
  rw [hdisp]
  rfl

variable [DecidableEq τ] {caller : Caller τ}

/-- The mask is the one that bitzer was started with. -/
theorem mask_inherited (hw : Reach L.step anyInput L.whole w) (hpc : w.sup.pc = .fork t caller)
    (hexec : L.taskRunChild w t ok = some prog) : prog.mask = L.mask := by
  have horigmask : w.origmask = L.mask := (kept_reach hw).origmask (by rw [hpc]; rfl)
  obtain ⟨ctx', hctx', -, -, horig⟩ := (running_fork hw hpc).ctx
  obtain ⟨⟨ctx, hctx, hmask⟩, -⟩ := taskRunChild_signals hexec
  rw [hctx'] at hctx
  cases hctx
  rw [hmask]
  funext s
  cases s with
  | handled s => exact (congrFun horig s).trans (L.mask_eq s)
  | pipe => exact congrFun horigmask .pipe
  | other n => exact congrFun horigmask (.other n)

/-- The dispositions are those that `signal_init` has left, after `exec`. -/
theorem disposition_inherited (hw : Reach L.step anyInput L.whole w)
    (hexec : L.taskRunChild w t ok = some prog) :
    prog.disposition = fun s => (installed signals L.start.proc.disposition s).exec := by
  rw [(taskRunChild_signals hexec).2, (kept_reach hw).disposition,
    (completed_of_ok L.init_ok).disposition]

/-- **The signals of a task.** A program begins with the mask and the
dispositions that bitzer was started with if and only if `SIGPIPE` was ignored
then, and none of the signals that bitzer handles was. -/
theorem signals_inherited_iff (hw : Reach L.step anyInput L.whole w)
    (hpc : w.sup.pc = .fork t caller) (hexec : L.taskRunChild w t ok = some prog) :
    (prog.mask = L.mask ∧ prog.disposition = L.start.proc.disposition) ↔
      L.start.ignored .pipe = true ∧ ∀ s, L.start.ignored (.handled s) = false := by
  have hstart : ∀ s, L.start.proc.disposition s = if L.start.ignored s then .ignore else .default :=
    fun _ => rfl
  rw [and_iff_right (mask_inherited hw hpc hexec), disposition_inherited hw hexec, funext_iff,
    exec_installed_iff (fun s => by rw [hstart]; split <;> decide)]
  simp only [hstart]
  refine and_congr ?_ (forall_congr' fun s => ?_)
  · cases L.start.ignored .pipe <;> decide
  · cases L.start.ignored (.handled s) <;> decide

theorem signals_inherited_iff_shell : ∃ (w : Whole Nat) (prog : Program),
    (shellLaunch ⟨[]⟩ fun _ => false).taskRunChild w 0 (fun _ => true) = some prog ∧
      ((prog.mask = (fun _ => false) ∧ prog.disposition = fun _ => .default) ↔
        (shellStart ⟨[]⟩ fun _ => false).ignored .pipe = true ∧
          ∀ s, (shellStart ⟨[]⟩ fun _ => false).ignored (.handled s) = false) := by
  obtain ⟨w, prog, hw, hpc, hexec⟩ := first_child (L := shellLaunch ⟨[]⟩ fun _ => false) rfl rfl
  exact ⟨w, prog, hexec, signals_inherited_iff hw hpc hexec⟩

/-- From a shell, which ignores nothing, every task runs with `SIGPIPE` ignored. -/
theorem not_signals_inherited : ¬ ∀ (L : Launch Nat) (w : Whole Nat) (t : Nat) (caller : Caller Nat)
    (ok : ChildCall → Bool) (prog : Program), Reach L.step anyInput L.whole w →
    w.sup.pc = .fork t caller → L.taskRunChild w t ok = some prog →
    prog.mask = L.mask ∧ prog.disposition = L.start.proc.disposition := by
  intro h
  obtain ⟨w, prog, hw, hpc, hexec⟩ := first_child (L := shellLaunch ⟨[]⟩ fun _ => false) rfl rfl
  have hdisp := (h _ w _ _ _ prog hw hpc hexec).2
  rw [disposition_inherited hw hexec] at hdisp
  have hpipe := congrFun hdisp .pipe
  exact absurd hpipe (by decide)

end Bitzer
