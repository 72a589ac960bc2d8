import Bitzer.Context.Control
import Bitzer.Main.Cleanup

/-!
# The whole process

The supervisor of `Context` runs in the process that `bz_init_instance` has
set up. `Whole` puts the two together: beside the supervisor's state the
descriptors and dispositions, and the mask on the signals that bitzer does not
handle. What the tasks inherit is read off it at each `fork`.
-/

namespace Bitzer

open Lib

/-- A start that succeeds: what the process finds, what the kernel answers to
`bz_init_instance`, and the process that this leaves. -/
structure Launch (τ : Type) where
  env : Env τ
  start : Start
  kernel : Kernel
  daemonize : Bool
  proc : Proc
  /-- The mask that the process inherits. -/
  mask : Signo → Bool
  environ : Str → Option Str
  init_ok : bzInitInstance kernel daemonize start.proc = .ok proc
  mask_eq : ∀ s, env.mask s = mask (.handled s)

structure Whole (τ : Type) where
  sup : State τ
  proc : Proc
  /-- The mask on the signals that `sup.mask` leaves out. -/
  mask : Signo → Bool
  /-- What `context_sigmask` has saved of it in `ctx->origmask`. -/
  origmask : Signo → Bool

variable {τ : Type}

/-- The mask of the process. -/
def Whole.sigmask (w : Whole τ) : Signo → Bool
  | .handled s => w.sup.mask s
  | s => w.mask s

/-- `ctx->origmask`. -/
def Whole.saved (w : Whole τ) (ctx : Context τ) : Signo → Bool
  | .handled s => ctx.origmask s
  | s => w.origmask s

/-- `conf_mmap`, which closes what it has opened. -/
def confMmap (p : Proc) : Proc :=
  { p with fds := (p.fds.openAs (.file (p.path .confFile))).close p.fds.lowestFree }

/-- The process at the end of `bz_init_instance`; the supervisor's own first
step is the end of that function. -/
def Launch.whole (L : Launch τ) : Whole τ where
  sup := init L.env
  proc := L.proc
  mask := L.mask
  origmask _ := false

variable [DecidableEq τ]

/-- `bz_write_pidfile` has succeeded. -/
def pidWritten (σ : State τ) (i : Input) : Prop := ¬ (σ.pc = .initInstance ∧ i = .sys .err)

instance (σ : State τ) (i : Input) : Decidable (pidWritten σ i) :=
  inferInstanceAs (Decidable (¬ _))

/-- What a step of the supervisor does to the rest of the process. The signals
outside `sup.mask` are none that `context_sigmask` blocks. -/
def Launch.step (L : Launch τ) (w : Whole τ) (i : Input) : Option (Whole τ) :=
  (guarded (next L.env.cfg) pidWritten w.sup i).map fun σ =>
    { sup := σ
      proc :=
        if w.sup.pc = .contextInit ∧ i.isSys then confMmap w.proc
        else if w.sup.pc = .postRun ∧ i.isSys then bzPostRun L.kernel w.proc
        else w.proc
      mask := w.mask
      origmask := if w.sup.pc = .sigmask ∧ i = .sys .ok then w.mask else w.origmask }

/-! ## What the process keeps -/

section
variable {cfg : Config τ} {σ σ' : State τ} {i : Input}

/-- The loop is entered through `context_sigmask`. -/
theorem inLoop_of_step (h : Step cfg σ i σ') (hloop : σ'.pc.inLoop = true) :
    σ.pc.inLoop = true ∨ (σ.pc = .sigmask ∧ i = .sys .ok) := by
  cases h with
  | goto hg =>
      cases hg with
      | pidfile | pidfileFailed | createFailed | initFailed | maskFailed | exit => cases hloop
      | started hpc | unexpected hpc | noChild hpc _ | drained hpc _ | childless hpc _
      | callback hpc _ => exact Or.inl (by rw [hpc]; rfl)
  | create hpc =>
      unfold contextCreate at hloop
      split at hloop <;> cases hloop
  | load hpc _ => cases hloop
  | assign hpc => cases hloop
  | setCallback hpc _ => cases hloop
  | mask hpc _ => exact Or.inr ⟨hpc, rfl⟩
  | start hpc => exact Or.inl (by rw [hpc]; rfl)
  | forked hpc _ _ => exact Or.inl (by rw [hpc]; rfl)
  | forkFailed hpc => exact Or.inl (by rw [hpc]; rfl)
  | enter hpc _ => exact Or.inl (by rw [hpc]; rfl)
  | reap hpc _ _ => exact Or.inl (by rw [hpc]; rfl)
  | close hpc => cases hloop
  | post hpc => cases hloop
  | childExit _ _ => exact Or.inl hloop
  | adopt _ _ => exact Or.inl hloop
  | raise => exact Or.inl hloop
  | @deliver s _ _ _ =>
      rcases pc_deliver s σ with hpc | ⟨hpc, -⟩ | hpc
      · exact Or.inl (hpc ▸ hloop)
      · exact Or.inl (by rw [hpc]; rfl)
      · rw [hpc] at hloop
        cases hloop

/-- The log is not opened again. -/
theorem logOpen_of_step (h : Step cfg σ i σ') (hopen : σ'.logOpen = true) : σ.logOpen = true := by
  cases h with
  | create hpc =>
      unfold contextCreate at hopen
      split at hopen <;> exact hopen
  | @forked t caller p _ _ _ => exact (sameControl_taskRunForked cfg caller t p σ).logOpen ▸ hopen
  | @reap c _ _ _ => exact (sameControl_reaped cfg c σ).logOpen ▸ hopen
  | post hpc => cases hopen
  | deliver _ _ _ => simpa using hopen
  | goto | load | assign | setCallback | mask | start | forkFailed | enter | close | childExit
  | adopt | raise => exact hopen

theorem logOpen_postRun {a : Answer} (hpc : σ.pc = .postRun)
    (h : sysStep cfg σ a = some σ') : σ'.logOpen = false := by
  cases a with
  | ok =>
      simp only [sysStep, hpc, Option.some.injEq] at h
      rw [← h]
  | err | zero | pid => simp [sysStep, hpc] at h

end

/-- What the process has kept of its start. -/
structure Kept (L : Launch τ) (w : Whole τ) : Prop where
  sup : Reach (next L.env.cfg) pidWritten (init L.env) w.sup
  mask : w.mask = L.mask
  origmask : w.sup.pc.inLoop = true → w.origmask = L.mask
  fds : w.sup.logOpen = true → ∀ n, w.proc.fds.get n = L.proc.fds.get n
  disposition : w.proc.disposition = L.proc.disposition

section
variable {L : Launch τ} {w w' : Whole τ} {i : Input}

theorem Kept.step (h : Kept L w) (hstep : L.step w i = some w') : Kept L w' := by
  obtain ⟨σ, hguarded, rfl⟩ := Option.map_eq_some_iff.mp hstep
  obtain ⟨hwritten, hnext⟩ := guarded_eq_some_iff.mp hguarded
  have hσ := step_of_next hnext
  refine ⟨.step h.sup hwritten hnext, h.mask, fun hloop => ?_, fun hopen n => ?_, ?_⟩
  · show (if _ then _ else _) = _
    rcases inLoop_of_step hσ hloop with hloop | hmask
    · rw [if_neg (fun hmask => by rw [hmask.1] at hloop; cases hloop)]
      exact h.origmask hloop
    · rw [if_pos hmask]
      exact h.mask
  · have hkept := h.fds (logOpen_of_step hσ hopen) n
    show (Proc.fds (if _ then _ else _)).get n = _
    split
    · exact Fds.get_openAs_close.trans hkept
    · split
      · -- `bz_post_run` closes the log, too
        rename_i hpost
        cases i with
        | sys a => exact absurd hopen (by rw [logOpen_postRun hpost.1 hnext]; decide)
        | childExit | adopt | raise | deliver => cases hpost.2
      · exact hkept
  · show Proc.disposition (if _ then _ else _) = _
    split
    · exact h.disposition
    · split
      · exact bzPostRun_disposition.trans h.disposition
      · exact h.disposition

theorem kept_reach (h : Reach L.step anyInput L.whole w) : Kept L w :=
  h.invariant ⟨.refl, rfl, nofun, fun _ _ => rfl, rfl⟩ fun _ _ _ _ hk _ hs => hk.step hs

/-- The rest of the process follows the supervisor wherever it goes, and does not
hold it back. -/
theorem reach_sup_iff {σ : State τ} : (∃ w, Reach L.step anyInput L.whole w ∧ w.sup = σ) ↔
    Reach (next L.env.cfg) pidWritten (init L.env) σ := by
  constructor
  · rintro ⟨w, hw, rfl⟩
    exact (kept_reach hw).sup
  · intro h
    induction h with
    | refl => exact ⟨_, .refl, rfl⟩
    | @step t u i _ hi hn ih =>
        obtain ⟨w, hw, rfl⟩ := ih
        have hstep : guarded (next L.env.cfg) pidWritten w.sup i = some u :=
          guarded_eq_some_iff.mpr ⟨hi, hn⟩
        exact ⟨_, hw.step trivial (congrArg (Option.map _) hstep), rfl⟩

/-- At a `fork` the supervisor is in its loop. -/
theorem running_fork {t : τ} {caller : Caller τ} (hw : Reach L.step anyInput L.whole w)
    (hpc : w.sup.pc = .fork t caller) : Running L.env w.sup :=
  (ctl_reach (kept_reach hw).sup.any).running (by rw [hpc]; rfl)

/-- A first task that has a name and a path is forked. -/
theorem first_fork {E : Env τ} {t : τ} {rest : List τ} (htasks : E.cfg.tasks = t :: rest)
    (hrunnable : (E.cfg.task t).runnable = true) :
    ∃ σ, Reach (next E.cfg) pidWritten (init E) σ ∧ σ.pc = .fork t (.startTasks rest) := by
  obtain ⟨σ, hσ, hpc, htask⟩ : ∃ σ, runFrom (guarded (next E.cfg) pidWritten) (init E)
      [.sys .ok, .sys .ok, .sys .ok, .sys .ok, .sys .ok, .sys .ok] = some σ ∧
      σ.pc = .startTasks E.cfg.tasks ∧ σ.task = E.cfg.task := ⟨_, rfl, rfl, rfl⟩
  rw [htasks] at hpc
  have hnext : next E.cfg σ (.sys .ok) = some (taskRun (.startTasks rest) t σ) := by
    simp only [next, sysStep, hpc]
  refine ⟨_, (Reach.of_guarded hσ).step (by simp [pidWritten]) hnext, ?_⟩
  exact if_pos (by rw [htask]; exact hrunnable)

end

end Bitzer
