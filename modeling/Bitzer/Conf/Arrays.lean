import Bitzer.Conf.Leftover

/-!
# The bounds of the growing arrays

The statements of the actions that work on `task->args` and `task->envp`, one by
one. None of them leaves its array, and between any two of them the length is
within the allocated slots.
-/

namespace Bitzer

/-! ## Statements on an array -/

/-- A statement of an action on a growing array `a`. -/
inductive ArrayOp where
  /-- `check_task_member`. -/
  | check (needsize incrsize : Nat)
  /-- `a[i] = v`. -/
  | write (i : Nat) (v : Slot)
  /-- `a[i + 1] = a[i]`. -/
  | moveUp (i : Nat)
  /-- `a_len++`. -/
  | incr
  /-- `a[a_len++] = v`. -/
  | push (v : Slot)

/-- The effect of the statement. -/
def ArrayOp.run : ArrayOp → StrArray → Option StrArray
  | .check needsize incrsize, a => some (a.checkTaskMember needsize incrsize)
  | .write i v, a => a.write i v
  | .moveUp i, a => (a.read i).bind fun v => a.write (i + 1) v
  | .incr, a => some { a with len := a.len + 1 }
  | .push v, a => a.push v

/-- The index that is written is below `_total`, and the slot that is read has
been written before: what is written is never `indeterminate`. -/
def ArrayOp.Safe : ArrayOp → StrArray → Prop
  | .write i v, a => i < a.total ∧ v ≠ .indeterminate
  | .moveUp i, a => i + 1 < a.total ∧ ∃ v, a.read i = some v ∧ v ≠ .indeterminate
  | .push v, a => a.len < a.total ∧ v ≠ .indeterminate
  | _, _ => True

/-- `_len` is at most `_total`, and `_total` is the number of slots allocated last. -/
structure StrArray.InBounds (a : StrArray) : Prop where
  len : a.len ≤ a.total
  total : a.total = (a.slots.getD []).length

/-- The statements lead from one array to the other; each is safe, and the array
is in bounds before and after it. -/
inductive RunsSafely : StrArray → List ArrayOp → StrArray → Prop
  | nil {a : StrArray} : a.InBounds → RunsSafely a [] a
  | cons {a a₁ a' : StrArray} {op : ArrayOp} {ops : List ArrayOp} : a.InBounds → op.Safe a →
      op.run a = some a₁ → RunsSafely a₁ ops a' → RunsSafely a (op :: ops) a'

/-! ## The statements of the actions -/

/-- A string is appended to `args` or `envp`. -/
def growOps (s : Str) : List ArrayOp := [.check 1 confDefaultLen, .push (.str s)]

/-- The loop of the `task` rule. -/
def shiftOps : Nat → List ArrayOp
  | 0 => []
  | i + 1 => .moveUp i :: shiftOps i

/-- The statements of the `task` rule on `args`. -/
def Task.closeArgsOps (task : Task) : List ArrayOp :=
  .check 2 2 :: (shiftOps task.args.len ++
    [.write 0 (Slot.ofStr task.path), .incr, .push .null])

/-- The statements of the `task` rule on `envp`. -/
def Task.closeEnvpOps (task : Task) : List ArrayOp :=
  if task.envp.slots.isSome then [.check 1 1, .push .null] else []

/-- The statements on `task->args` in a step of the parser. -/
def Pos.argsOps : Pos → Token → Task → List ArrayOp
  | .argsList, t, _ => (t.innerArg.map growOps).getD []
  | .argEndQuote s, .quote, _ => growOps s
  | .taskOpts, .endBrace, cur => cur.closeArgsOps
  | _, _, _ => []

/-- The statements on `task->envp` in a step of the parser. -/
def Pos.envpOps : Pos → Token → Task → List ArrayOp
  | .envEnd s, .semicolon, _ => growOps s
  | .taskOpts, .endBrace, cur => cur.closeEnvpOps
  | _, _, _ => []

/-- The task that a step leaves: the one of the block, or the one it has put in
the list. -/
def ParseState.left (pos : Pos) (st : ParseState) : Option Task :=
  if pos = .tasks then st.tasksList.head? else some (st.task.getD taskInit)

/-- A step of the parser keeps the bounds of both arrays, statement by statement. -/
def SafeStep (pos : Pos) (t : Token) (st : ParseState) (pos' : Pos) (st' : ParseState) : Prop :=
  ∃ task', st'.left pos' = some task' ∧
    RunsSafely (st.task.getD taskInit).args (pos.argsOps t (st.task.getD taskInit)) task'.args ∧
    RunsSafely (st.task.getD taskInit).envp (pos.envpOps t (st.task.getD taskInit)) task'.envp

/-- The parse goes through the tokens, and every step keeps the bounds. -/
def SafeParse : Pos → ParseState → List Token → Prop
  | _, _, [] => True
  | pos, st, t :: ts => ∃ pos' f st', pos.next t = some (pos', f) ∧ f st = some st' ∧
      SafeStep pos t st pos' st' ∧ SafeParse pos' st' ts

section
variable {a a₁ a' : StrArray} {vs : List Slot} {ops ops' : List ArrayOp} {pos pos' : Pos}
  {st st' : ParseState} {o : Options} {t : Token} {ts : List Token} {f : Action} {s : Str}

/-! ## Runs on an array -/

theorem StrArray.Contains.inBounds (h : a.Contains vs) : a.InBounds := by
  obtain ⟨junk, hslots, hlen, htotal⟩ := h
  refine ⟨?_, by rw [htotal, hslots]⟩
  rw [hlen, htotal, List.length_append]
  omega

theorem RunsSafely.inBounds_end (h : RunsSafely a ops a') : a'.InBounds := by
  induction h with
  | nil hb => exact hb
  | cons _ _ _ _ ih => exact ih

theorem RunsSafely.append (h : RunsSafely a ops a₁) (h' : RunsSafely a₁ ops' a') :
    RunsSafely a (ops ++ ops') a' := by
  induction h with
  | nil _ => exact h'
  | cons hb hsafe hrun _ ih => exact .cons hb hsafe hrun (ih h')

/-- There is room for one more value behind a `check_task_member`. -/
theorem checked_push_runs (h : a.Contains vs) {need incr : Nat} (hle : need ≤ incr)
    (hneed : 0 < need) {v : Slot} (hv : v ≠ .indeterminate) :
    ∃ a', (a.checkTaskMember need incr).push v = some a' ∧
      RunsSafely a [.check need incr, .push v] a' := by
  obtain ⟨hc, hlen, hroom, -⟩ := h.checkTaskMember hle
  have hlt : (a.checkTaskMember need incr).len < (a.checkTaskMember need incr).total := by omega
  obtain ⟨a', hpush, hc', -, -⟩ := hc.push hlt v
  have hend : RunsSafely a' [] a' := .nil hc'.inBounds
  exact ⟨a', hpush, .cons h.inBounds trivial rfl (.cons hc.inBounds ⟨hlt, hv⟩ hpush hend)⟩

theorem grow_runs {ws : List Str} (h : a.Contains (ws.map .str)) (s : Str) :
    ∃ a', (a.checkTaskMember 1 confDefaultLen).push (.str s) = some a' ∧
      RunsSafely a (growOps s) a' :=
  checked_push_runs h (by decide) Nat.one_pos nofun

/-- The loop reads the used slots and writes up to the one behind them. -/
theorem shift_runs {us rest : List Slot} {c : Slot} (hs : a.slots = some (us ++ c :: rest))
    (hb : a.InBounds) (hw : ∀ v ∈ us, v ≠ .indeterminate) :
    ∃ a', a.shift us.length = some a' ∧ RunsSafely a (shiftOps us.length) a' := by
  induction us using List.reverseRecOn generalizing a c rest with
  | nil => exact ⟨a, rfl, .nil hb⟩
  | append_singleton us d ih =>
      rw [List.append_assoc, List.singleton_append] at hs
      have hread : a.read us.length = some d := by simp [StrArray.read, hs]
      have hwrite : a.write (us.length + 1) d =
          some { a with slots := some (us ++ d :: d :: rest) } := by
        simp [StrArray.write, hs]
      have htotal : a.total = us.length + (rest.length + 2) := by
        rw [hb.total, hs]
        simp
      have hb' : StrArray.InBounds { a with slots := some (us ++ d :: d :: rest) } :=
        ⟨hb.len, by simp [htotal]⟩
      obtain ⟨a', hshift, hruns⟩ := ih (a := { a with slots := some (us ++ d :: d :: rest) }) rfl
        hb' fun v hv => hw v (List.mem_append_left _ hv)
      have hsafe : (ArrayOp.moveUp us.length).Safe a :=
        ⟨by omega, d, hread, hw d (by simp)⟩
      rw [List.length_append, List.length_singleton]
      refine ⟨a', ?_, .cons hb hsafe (by rw [ArrayOp.run, hread]; exact hwrite) hruns⟩
      rw [StrArray.shift, hread]
      simp only [Option.bind_eq_bind, Option.bind_some, hwrite]
      exact hshift

/-! ## The actions -/

/-- The arrays of the task under construction go through the statements. -/
def Action.Runs (f : Action) (args envp : List ArrayOp) : Prop :=
  ∀ st st' o, st.Reads o → f st = some st' →
    RunsSafely (st.task.getD taskInit).args args (st'.task.getD taskInit).args ∧
      RunsSafely (st.task.getD taskInit).envp envp (st'.task.getD taskInit).envp

theorem Action.Runs.skip : Action.skip.Runs [] [] := by
  intro st st' o hr h
  cases h
  exact ⟨.nil hr.args.inBounds, .nil hr.env.inBounds⟩

theorem onTask_runs {u : Task → Option Task} {args envp : List ArrayOp}
    (h : ∀ task task' o, Reads task o → u task = some task' →
      RunsSafely task.args args task'.args ∧ RunsSafely task.envp envp task'.envp) :
    Action.Runs (fun st => onTask u (checkTask st)) args envp := by
  intro st st' o hr hst
  obtain ⟨task', hu, hst⟩ := Option.bind_eq_some_iff.mp hst
  cases hst
  exact h _ task' o hr hu

/-- An option that leaves the arrays alone. -/
theorem onTask_runs_set {u : Task → Task} (hargs : ∀ task, (u task).args = task.args)
    (henvp : ∀ task, (u task).envp = task.envp) :
    Action.Runs (fun st => onTask (fun task => some (u task)) (checkTask st)) [] [] := by
  refine onTask_runs fun task task' o hr hu => ?_
  cases hu
  rw [hargs, henvp]
  exact ⟨.nil hr.args.inBounds, .nil hr.env.inBounds⟩

theorem argAction_runs (s : Str) : (argAction s).Runs (growOps s) [] := by
  refine onTask_runs fun task task' o hr hu => ?_
  obtain ⟨args, hpush, hruns⟩ := grow_runs hr.args s
  rw [hpush] at hu
  cases hu
  exact ⟨hruns, .nil hr.env.inBounds⟩

theorem envAction_runs (s : Str) : (envAction s).Runs [] (growOps s) := by
  refine onTask_runs fun task task' o hr hu => ?_
  obtain ⟨envp, hpush, hruns⟩ := grow_runs hr.env s
  rw [hpush] at hu
  cases hu
  exact ⟨.nil hr.args.inBounds, hruns⟩

theorem Slot.ofStr_ne (p : Option Str) : Slot.ofStr p ≠ .indeterminate := by
  cases p <;> exact nofun

/-- The `task` rule on `args`. -/
theorem closeArgs_runs {task : Task} {a₁ a₂ args : StrArray} (hr : Reads task o)
    (hshift : (task.args.checkTaskMember 2 2).shift (task.args.checkTaskMember 2 2).len = some a₁)
    (hwrite : a₁.write 0 (Slot.ofStr task.path) = some a₂)
    (hpush : ({ a₂ with len := a₂.len + 1 } : StrArray).push .null = some args) :
    RunsSafely task.args task.closeArgsOps args := by
  obtain ⟨hc, hlen, hroom, -⟩ := hr.args.checkTaskMember (Nat.le_refl 2)
  obtain ⟨v, junk, hslots, hlen', -⟩ := hc.slots_eq (by omega)
  -- the shift, with one slot free behind the used ones
  have hused : ∀ v ∈ o.args.map Slot.str, v ≠ .indeterminate := by
    intro v hv
    obtain ⟨s, -, rfl⟩ := List.mem_map.mp hv
    exact nofun
  obtain ⟨b₁, hb₁, hmoves⟩ := shift_runs hslots hc.inBounds hused
  rw [← hlen', hshift] at hb₁
  cases hb₁
  rw [← hlen', hlen] at hmoves
  -- the path in front, and the `NULL`
  obtain ⟨b₁, b₂, hb₁, hb₂, hc₂, hlen₂, htotal₂⟩ := hc.unshift (by omega) (Slot.ofStr task.path)
  rw [hshift] at hb₁
  cases hb₁
  rw [hwrite] at hb₂
  cases hb₂
  have hbound : a₂.InBounds := ⟨by omega, hc₂.inBounds.total⟩
  have hlt : ({ a₂ with len := a₂.len + 1 } : StrArray).len < a₂.total := by
    simp only
    omega
  obtain ⟨b, hb, hc₃, -, -⟩ := hc₂.push hlt .null
  rw [hpush] at hb
  cases hb
  have htotal₁ : a₁.total = a₂.total := by
    obtain ⟨slots, -, hw⟩ := Option.bind_eq_some_iff.mp hwrite
    split at hw
    · cases hw
      rfl
    · cases hw
  have hpath : (ArrayOp.write 0 (Slot.ofStr task.path)).Safe a₁ := ⟨by omega, Slot.ofStr_ne _⟩
  have hnull : RunsSafely { a₂ with len := a₂.len + 1 } [.push .null] args :=
    .cons hc₂.inBounds ⟨hlt, nofun⟩ hpush (.nil hc₃.inBounds)
  have hincr : RunsSafely a₂ [.incr, .push .null] args :=
    .cons hbound trivial rfl hnull
  have hend := RunsSafely.cons hmoves.inBounds_end hpath hwrite hincr
  exact .cons hr.args.inBounds trivial rfl (hmoves.append hend)

/-- The `task` rule on `envp`. -/
theorem closeEnvp_runs {task : Task} {envp : StrArray} (hr : Reads task o)
    (h : (if task.envp.slots.isSome then (task.envp.checkTaskMember 1 1).push .null
      else some task.envp) = some envp) : RunsSafely task.envp task.closeEnvpOps envp := by
  unfold Task.closeEnvpOps
  split at h
  · obtain ⟨a', hpush, hruns⟩ := checked_push_runs hr.env (Nat.le_refl 1) Nat.one_pos
      (v := .null) nofun
    rw [hpush] at h
    cases h
    rw [if_pos ‹_›]
    exact hruns
  · cases h
    rw [if_neg ‹_›]
    exact .nil hr.env.inBounds

/-! ## The parse -/

/-- A step closes a block, or runs its statements on the arrays of the task. -/
theorem Pos.next_runs (h : pos.next t = some (pos', f)) :
    pos = .taskOpts ∧ t = .endBrace ∧ pos' = .tasks ∧ f = taskAction ∨
      pos' ≠ .tasks ∧ ∀ cur, f.Runs (pos.argsOps t cur) (pos.envpOps t cur) := by
  cases pos <;> cases t <;> cases h <;>
    first
      | exact Or.inl ⟨rfl, rfl, rfl, rfl⟩
      | exact Or.inr ⟨nofun, fun _ => .skip⟩
      | exact Or.inr ⟨nofun, fun _ => argAction_runs _⟩
      | exact Or.inr ⟨nofun, fun _ => envAction_runs _⟩
      | exact Or.inr ⟨nofun, fun _ => onTask_runs_set (fun _ => rfl) fun _ => rfl⟩

theorem safeStep (hr : st.Reads o) (hn : pos.next t = some (pos', f)) (hf : f st = some st') :
    SafeStep pos t st pos' st' := by
  rcases Pos.next_runs hn with ⟨rfl, rfl, rfl, rfl⟩ | ⟨hp, hruns⟩
  · obtain ⟨task, a₁, a₂, args, envp, htask, hshift, hwrite, hpush, henvp, rfl⟩ :=
      taskAction_iff.mp hf
    rw [ParseState.Reads, htask, Option.getD_some] at hr
    refine ⟨_, rfl, ?_⟩
    rw [htask, Option.getD_some]
    exact ⟨closeArgs_runs hr hshift hwrite hpush, closeEnvp_runs hr henvp⟩
  · exact ⟨_, if_neg hp, hruns _ st st' o hr hf⟩

/-- A step leaves a task that has what its options say. -/
theorem reads_step (hr : st.Reads o) (hn : pos.next t = some (pos', f)) (hf : f st = some st') :
    ∃ o', st'.Reads o' := by
  rcases Pos.next_stores hn with ⟨rfl, rfl⟩ | ⟨-, rfl⟩
  · exact ⟨{}, reads_of_task (taskAction_task hf)⟩
  · exact ⟨_, optsAction_adds_foldl.reads hr hf⟩

theorem safeParse {st₀ : ParseState} (hr : st.Reads o) (h : yyparse pos st ts = .accept st₀) :
    SafeParse pos st ts := by
  induction ts generalizing pos st o with
  | nil => trivial
  | cons t ts ih =>
      obtain ⟨pos', f, st', hn, hf, hrest⟩ := yyparse_cons_accept.mp h
      obtain ⟨o', hr'⟩ := reads_step hr hn hf
      exact ⟨pos', f, st', hn, hf, safeStep hr hn hf, ih hr' hrest⟩

/-- **Bounds.** Throughout the parse of a configuration that is accepted, the
lengths of `args` and `envp` are within their allocated slots, and every slot
that is written or read by an action is one of them. -/
theorem arrays_in_bounds {l : List Task} (h : yyparse .tasks ⟨l, none⟩ ts = .accept st) :
    SafeParse .tasks ⟨l, none⟩ ts :=
  safeParse reads_init h

/-- `task { name s; args -v; env A=b; }`. -/
theorem arrays_in_bounds_args :
    SafeParse .tasks ⟨[], none⟩ [.tokenTask, .openBrace, .tokenName, .alphaWord [115], .semicolon,
      .tokenArgs, .argKey [45, 118], .semicolon, .tokenEnv, .envar [65, 61, 98], .semicolon,
      .endBrace] :=
  arrays_in_bounds rfl

end

end Bitzer
