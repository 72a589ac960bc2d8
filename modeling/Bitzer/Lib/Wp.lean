import Mathlib.Tactic.Common

/-!
# Programs that may fault or fail

A program over a state `σ` returns a value and a new state, or faults. `wp` is
its total weakest precondition: the program does not fault (nor run out of
fuel) and its result meets the postcondition. `Sim` compares the runs of two programs.
`Exit` is for functions that return an error and leave a state then too.
-/

namespace Lib

/-- A program over the state `σ`; `none` is a fault. -/
abbrev Prog (σ : Type) := StateT σ Option

variable {σ β γ : Type}

/-- Run from `s`, the program returns and its result satisfies `Q`. -/
def wp (x : Prog σ β) (Q : β → σ → Prop) (s : σ) : Prop :=
  ∃ v s', x.run s = some (v, s') ∧ Q v s'

theorem wp_of_run {x : Prog σ β} {Q : β → σ → Prop} {s s' : σ} {v : β}
    (h : x.run s = some (v, s')) : wp x Q s ↔ Q v s' := by
  constructor
  · rintro ⟨w, t, hr, hQ⟩
    rw [h] at hr
    cases hr
    exact hQ
  · intro hQ
    exact ⟨v, s', h, hQ⟩

@[simp] theorem wp_pure (v : β) (Q : β → σ → Prop) (s : σ) :
    wp (pure v) Q s ↔ Q v s :=
  wp_of_run rfl

@[simp] theorem wp_bind (x : Prog σ β) (f : β → Prog σ γ) (Q : γ → σ → Prop) (s : σ) :
    wp (x >>= f) Q s ↔ wp x (fun v t => wp (f v) Q t) s := by
  constructor
  · rintro ⟨w, t, hr, hQ⟩
    rw [StateT.run_bind] at hr
    obtain ⟨⟨v, u⟩, hx, hf⟩ := Option.bind_eq_some_iff.mp hr
    exact ⟨v, u, hx, w, t, hf, hQ⟩
  · rintro ⟨v, u, hx, w, t, hf, hQ⟩
    refine ⟨w, t, ?_, hQ⟩
    rw [StateT.run_bind, hx]
    exact hf

@[simp] theorem wp_get (Q : σ → σ → Prop) (s : σ) : wp get Q s ↔ Q s s :=
  wp_of_run rfl

@[simp] theorem wp_modify (f : σ → σ) (Q : Unit → σ → Prop) (s : σ) :
    wp (modify f : Prog σ Unit) Q s ↔ Q () (f s) :=
  wp_of_run rfl

theorem wp_mono {x : Prog σ β} {Q Q' : β → σ → Prop} {s : σ} (h : wp x Q s)
    (hQ : ∀ v t, Q v t → Q' v t) : wp x Q' s := by
  obtain ⟨v, t, hr, hv⟩ := h
  exact ⟨v, t, hr, hQ v t hv⟩

/-- A program has one run. -/
theorem wp_and {x : Prog σ β} {Q Q' : β → σ → Prop} {s : σ} (h : wp x Q s) (h' : wp x Q' s) :
    wp x (fun v t => Q v t ∧ Q' v t) s := by
  obtain ⟨v, t, hr, hQ⟩ := h
  exact ⟨v, t, hr, hQ, (wp_of_run hr).mp h'⟩

/-- A program on the first part of a state. -/
def onFst {ρ : Type} (x : Prog σ β) : Prog (σ × ρ) β :=
  fun s => (x.run s.1).map fun r => (r.1, (r.2, s.2))

theorem wp_onFst {ρ : Type} {x : Prog σ β} {Q : β → σ × ρ → Prop} {s : σ × ρ} :
    wp (onFst x) Q s ↔ wp x (fun v t => Q v (t, s.2)) s.1 := by
  constructor
  · rintro ⟨v, s', hr, hQ⟩
    obtain ⟨⟨w, t⟩, hx, heq⟩ := Option.map_eq_some_iff.mp hr
    cases heq
    exact ⟨w, t, hx, hQ⟩
  · rintro ⟨v, t, hr, hQ⟩
    exact ⟨v, (t, s.2), Option.map_eq_some_iff.mpr ⟨_, hr, rfl⟩, hQ⟩

/-- What holds after a run whatever it leaves holds. -/
theorem of_wp {x : Prog σ β} {P : Prop} {s : σ} (h : wp x (fun _ _ => P) s) : P := by
  obtain ⟨_, _, -, hP⟩ := h
  exact hP

/-! ## Programs on related states -/

/-- Where `x` returns, `y` does so from a related state, with the same value and
a related state. -/
def Sim (R : σ → σ → Prop) (x y : Prog σ β) : Prop :=
  ∀ s t, R s t → ∀ v s', x.run s = some (v, s') → ∃ t', y.run t = some (v, t') ∧ R s' t'

namespace Sim

variable {R : σ → σ → Prop} {x y x' y' : Prog σ β}

/-- The same program from the same state. -/
theorem refl (x : Prog σ β) : Sim Eq x x := by
  rintro s _ rfl v s' hr
  exact ⟨s', hr, rfl⟩

/-- A program that does not return. -/
theorem fault (y : Prog σ β) : Sim R (fun _ => none) y := by
  intro s t _ v s' hr
  cases hr

theorem pure (v : β) : Sim R (Pure.pure v) (Pure.pure v) := by
  intro s t h w s' hr
  cases hr
  exact ⟨t, rfl, h⟩

theorem bind {f g : β → Prog σ γ} (h : Sim R x y) (hfg : ∀ v, Sim R (f v) (g v)) :
    Sim R (x >>= f) (y >>= g) := by
  intro s t hst w s' hr
  rw [StateT.run_bind] at hr
  obtain ⟨⟨v, s₁⟩, hx, hf⟩ := Option.bind_eq_some_iff.mp hr
  obtain ⟨t₁, hy, h₁⟩ := h s t hst v s₁ hx
  obtain ⟨t', hg, h'⟩ := hfg v s₁ t₁ h₁ w s' hf
  refine ⟨t', ?_, h'⟩
  rw [StateT.run_bind, hy]
  exact hg

theorem ite {c : Prop} [Decidable c] (h : Sim R x y) (h' : Sim R x' y') :
    Sim R (if c then x else x') (if c then y else y') := by
  split
  · exact h
  · exact h'

/-- What `x` does, `y` does. -/
theorem wp {Q : β → σ → Prop} {s : σ} (h : Sim Eq x y) (hx : Lib.wp x Q s) : Lib.wp y Q s := by
  obtain ⟨v, s', hr, hQ⟩ := hx
  obtain ⟨_, hy, rfl⟩ := h s s rfl v s' hr
  exact ⟨v, s', hy, hQ⟩

end Sim

/-- With fuel `n` or more the program returns, and always the same. -/
def EndsWithin (x : Nat → Prog σ β) (n : Nat) (s : σ) : Prop :=
  ∃ r, ∀ fuel, n ≤ fuel → (x fuel).run s = some r

theorem EndsWithin.of_wp {x : Nat → Prog σ β} {n : Nat} {s : σ} {Q : β → σ → Prop}
    (hx : ∀ f f', f ≤ f' → Sim Eq (x f) (x f')) (h : wp (x n) Q s) : EndsWithin x n s := by
  obtain ⟨v, s', hr, -⟩ := h
  refine ⟨(v, s'), fun fuel hf => ?_⟩
  obtain ⟨_, hr', rfl⟩ := hx n fuel hf s s rfl v s' hr
  exact hr'

/-! ## Functions that may fail -/

/-- How a function over the state `σ` returns: with success, with an error, or
not at all. -/
inductive Exit (σ : Type) where
  | ok (s : σ)
  | error (s : σ)
  | exited

namespace Exit

/-- The state, where the function returns. -/
def state? : Exit σ → Option σ
  | .ok s => some s
  | .error s => some s
  | .exited => none

/-- The next function, where the one before has not returned an error. -/
def andThen (r : Exit σ) (f : σ → Exit σ) : Exit σ :=
  match r with
  | .ok s => f s
  | .error s => .error s
  | .exited => .exited

/-- Where the function returns, it leaves `D` after success and `F` after
failure. -/
def Ends (r : Exit σ) (D F : σ → Prop) : Prop :=
  match r with
  | .ok s => D s
  | .error s => F s
  | .exited => True

variable {r : Exit σ} {f g : σ → Exit σ} {D D' F F' : σ → Prop}

theorem andThen_assoc : (r.andThen f).andThen g = r.andThen fun s => (f s).andThen g := by
  cases r <;> rfl

theorem Ends.mono (h : r.Ends D F) (hD : ∀ s, D s → D' s) (hF : ∀ s, F s → F' s) :
    r.Ends D' F' := by
  cases r with
  | ok s => exact hD s h
  | error s => exact hF s h
  | exited => trivial

/-- What holds however the function returns. -/
theorem Ends.of_state {s : σ} (h : r.Ends D D) (hs : r.state? = some s) : D s := by
  cases r with
  | ok t =>
      cases hs
      exact h
  | error t =>
      cases hs
      exact h
  | exited => cases hs

/-- The rule of sequencing: what the first function leaves after success is
what the second one starts from. -/
theorem Ends.andThen (h : r.Ends D F) (hf : ∀ s, D s → (f s).Ends D' F) :
    (r.andThen f).Ends D' F := by
  cases r with
  | ok s => exact hf s h
  | error s => exact h
  | exited => trivial

/-- Both functions return in the same way, with states that `D` relates after success
and `F` after failure. -/
def Both {τ : Type} (D F : τ → σ → Prop) : Exit τ → Exit σ → Prop
  | .ok t, .ok s => D t s
  | .error t, .error s => F t s
  | .exited, .exited => True
  | _, _ => False

theorem Ends.ite {c : Prop} [Decidable c] {r' : Exit σ} (h : c → r.Ends D F)
    (h' : ¬ c → r'.Ends D F) : (if c then r else r').Ends D F := by
  split
  · exact h ‹_›
  · exact h' ‹_›

end Exit

/-- A program that may fail, and the next one. -/
def thenDo {τ : Type} (x : Prog σ (Exit τ)) (f : τ → Prog σ (Exit τ)) : Prog σ (Exit τ) := do
  match ← x with
  | .ok t => f t
  | r => return r

/-- The rule of sequencing for programs that a function describes. -/
theorem wp_thenDo {τ ρ : Type} {x : Prog σ (Exit τ)} {f : τ → Prog σ (Exit τ)} {r : Exit ρ}
    {g : ρ → Exit ρ} {D D' F : σ → τ → ρ → Prop} {s : σ}
    (hx : wp x (fun q s' => q.Both (D s') (F s') r) s)
    (hf : ∀ t u s', D s' t u → wp (f t) (fun q s'' => q.Both (D' s'') (F s'') (g u)) s') :
    wp (thenDo x f) (fun q s' => q.Both (D' s') (F s') (r.andThen g)) s := by
  refine (wp_bind ..).mpr (wp_mono hx ?_)
  intro q s' hq
  cases q with
  | ok t =>
      cases r with
      | ok u => exact hf t u s' hq
      | error u => exact hq.elim
      | exited => exact hq.elim
  | error t =>
      cases r with
      | ok u => exact hq.elim
      | error u => exact (wp_pure ..).mpr hq
      | exited => exact hq.elim
  | exited =>
      cases r with
      | ok u => exact hq.elim
      | error u => exact hq.elim
      | exited => exact (wp_pure ..).mpr trivial

end Lib
