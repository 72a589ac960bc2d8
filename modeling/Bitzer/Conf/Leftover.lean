import Bitzer.Conf.Load
import Bitzer.Conf.Meaning

/-!
# What a rejected configuration leaves behind

The static `task` survives a syntax error, and the next load goes on with it.
`Pos.blocks` reads off the tokens what the blocks of a parse store, and what the
block has stored that the parse breaks off in.
-/

namespace Bitzer

/-! ## What a parse stores -/

/-- The option that a step of the parser stores in the task; the words of an
`args` option are stored one by one. -/
def Pos.stores : Pos → Token → List Opt
  | .nameEnd s, .semicolon => [.name s]
  | .pathEnd s, .semicolon => [.path s]
  | .argsList, t => (t.innerArg.map fun s => Opt.args [s]).toList
  | .argEndQuote s, .quote => [.args [s]]
  | .envEnd s, .semicolon => [.env s]
  | .dirEnd s, .semicolon => [.dir s]
  | _, _ => []

/-- The blocks that the parse completes, and the block that it ends or breaks off
in. -/
def Pos.blocks : Pos → List Opt → List Token → List (List Opt) × List Opt
  | _, b, [] => ([], b)
  | pos, b, t :: ts =>
      match pos.next t with
      | none => ([], b)
      | some (pos', _) =>
          if pos' = .tasks then (b :: (pos'.blocks [] ts).1, (pos'.blocks [] ts).2)
          else pos'.blocks (b ++ pos.stores t) ts

/-- The options that the parse has stored in the block it ends or breaks off in. -/
def unfinished (ts : List Token) : List Opt := (Pos.tasks.blocks [] ts).2

/-- The blocks that the parse completes. -/
def completed (ts : List Token) : List (List Opt) := (Pos.tasks.blocks [] ts).1

/-- The tokens are those of a configuration from a position on. -/
def Pos.accepts : Pos → List Token → Bool
  | pos, [] => pos = .tasks
  | pos, t :: ts =>
      match pos.next t with
      | none => false
      | some (pos', _) => pos'.accepts ts

/-- A step runs the action at the closing brace, or those of what it stores. -/
theorem Pos.next_stores {pos pos' : Pos} {t : Token} {f : Action}
    (h : pos.next t = some (pos', f)) :
    pos' = .tasks ∧ f = taskAction ∨ pos' ≠ .tasks ∧ f = optsAction (pos.stores t) := by
  cases pos <;> cases t <;> cases h <;>
    first | exact Or.inl ⟨rfl, rfl⟩ | exact Or.inr ⟨nofun, rfl⟩

theorem Pos.stores_creates {pos : Pos} {t : Token} : ∀ x ∈ pos.stores t, x.creates = true := by
  cases pos <;> cases t <;> simp [Pos.stores, Token.innerArg, Opt.creates]

section
variable {pos pos' : Pos} {st st' st₀ : ParseState} {o : Options} {b b' : List Opt}
  {bs : List (List Opt)} {t : Token} {ts : List Token} {f g : Action}

theorem Pos.blocks_stop (h : pos.next t = none) : pos.blocks b (t :: ts) = ([], b) := by
  rw [Pos.blocks, h]

theorem Pos.blocks_close (h : pos.next t = some (.tasks, f)) :
    pos.blocks b (t :: ts) = (b :: (Pos.tasks.blocks [] ts).1, (Pos.tasks.blocks [] ts).2) := by
  rw [Pos.blocks, h]
  exact if_pos rfl

theorem Pos.blocks_step (h : pos.next t = some (pos', f)) (hp : pos' ≠ .tasks) :
    pos.blocks b (t :: ts) = pos'.blocks (b ++ pos.stores t) ts := by
  rw [Pos.blocks, h]
  exact if_neg hp

/-- Every option that is stored creates the task. -/
theorem Pos.blocks_creates (pos : Pos) (ts : List Token) (hb : ∀ x ∈ b, x.creates = true) :
    (∀ b' ∈ (pos.blocks b ts).1, ∀ x ∈ b', x.creates = true) ∧
      ∀ x ∈ (pos.blocks b ts).2, x.creates = true := by
  induction ts generalizing pos b with
  | nil => exact ⟨nofun, hb⟩
  | cons t ts ih =>
      cases hn : pos.next t with
      | none =>
          rw [Pos.blocks_stop hn]
          exact ⟨nofun, hb⟩
      | some step =>
          obtain ⟨pos', f⟩ := step
          by_cases hp : pos' = .tasks
          · subst hp
            rw [Pos.blocks_close hn]
            obtain ⟨hdone, hopen⟩ := ih .tasks (b := []) nofun
            exact ⟨List.forall_mem_cons.mpr ⟨hb, hdone⟩, hopen⟩
          · rw [Pos.blocks_step hn hp]
            refine ih pos' fun x hx => ?_
            rcases List.mem_append.mp hx with hx | hx
            · exact hb x hx
            · exact Pos.stores_creates x hx

theorem blocksAction_cons :
    blocksAction (b :: bs) = ((optsAction b).seq taskAction).seq (blocksAction bs) := by
  induction bs using List.reverseRecOn with
  | nil => exact (Action.seq_skip _).symm
  | append_singleton bs b' ih =>
      rw [← List.cons_append, blocksAction_append, blocksAction_append, ih, Action.seq_assoc]

theorem blocksAction_cons_run :
    blocksAction (b :: bs) st = ((optsAction b).seq taskAction st).bind (blocksAction bs) := by
  rw [blocksAction_cons]
  rfl

theorem optsAction_append_list :
    optsAction (b ++ b') = (optsAction b).seq (optsAction b') := by
  induction b' using List.reverseRecOn with
  | nil =>
      rw [List.append_nil]
      exact (Action.seq_skip _).symm
  | append_singleton b' x ih =>
      rw [← List.append_assoc, optsAction_append, optsAction_append, ih, Action.seq_assoc]

/-- A block that is closed leaves no task behind. -/
theorem taskAction_task (h : taskAction st = some st') : st'.task = none := by
  obtain ⟨_, _, _, _, _, -, -, -, -, -, rfl⟩ := taskAction_iff.mp h
  rfl

theorem reads_of_task (h : st.task = none) : st.Reads {} := by
  obtain ⟨l, task⟩ := st
  cases h
  exact reads_init

/-- The actions of a parse that completes the blocks `bs` and stops in `b`. -/
def parseAction (r : List (List Opt) × List Opt) : Action :=
  (blocksAction r.1).seq (optsAction r.2)

theorem parseAction_cons :
    parseAction (b :: bs, b') = ((optsAction b).seq taskAction).seq (parseAction (bs, b')) := by
  rw [parseAction, blocksAction_cons, Action.seq_assoc]
  rfl

/-- The parse as the run of its blocks. -/
theorem yyparse_blocks (h₀ : st₀.Reads o) (h : optsAction b st₀ = some st) :
    (yyparse pos st ts).loaded =
      (parseAction (pos.blocks b ts) st₀).map fun st' => (pos.accepts ts, st') := by
  have hstop : parseAction ([], b) = optsAction b := Action.skip_seq _
  induction ts generalizing pos b st st₀ o with
  | nil =>
      rw [Pos.blocks, yyparse, Pos.accepts, hstop, h]
      by_cases hp : pos = .tasks <;> simp [hp, Outcome.loaded]
  | cons t ts ih =>
      rw [yyparse, Pos.accepts]
      cases hn : pos.next t with
      | none =>
          rw [Pos.blocks_stop hn, hstop, h]
          rfl
      | some step =>
          obtain ⟨pos', f⟩ := step
          rcases Pos.next_stores hn with ⟨rfl, rfl⟩ | ⟨hp, rfl⟩
          · -- a block is closed
            rw [Pos.blocks_close hn, parseAction_cons, Action.seq, Action.seq, h]
            simp only [Option.bind_some]
            cases htask : taskAction st with
            | none => rfl
            | some st₁ =>
                exact ih (reads_of_task (taskAction_task htask)) (b := []) rfl (Action.skip_seq _)
          · -- an option is stored
            rw [Pos.blocks_step hn hp]
            have hr := optsAction_adds_foldl.reads h₀ h
            obtain ⟨st₂, hst₂, -, -⟩ := optsAction_adds_foldl (b := pos.stores t) st hr
            simp only [hst₂]
            refine ih h₀ ?_ (Action.skip_seq _)
            rw [optsAction_append_list, Action.seq, h]
            exact hst₂

/-! ## The tasks list -/

/-- The tasks that are in the list already make no difference. -/
def Action.Prepends (f : Action) : Prop :=
  ∀ l l' task, f ⟨l ++ l', task⟩ = (f ⟨l, task⟩).map fun st => ⟨st.tasksList ++ l', st.task⟩

theorem Action.Prepends.skip : Action.skip.Prepends := fun _ _ _ => rfl

theorem Action.Prepends.seq (hf : f.Prepends) (hg : g.Prepends) : (f.seq g).Prepends := by
  intro l l' task
  rw [Action.seq, Action.seq, hf]
  cases f ⟨l, task⟩ with
  | none => rfl
  | some st => exact hg st.tasksList l' st.task

theorem onTask_prepends {u : Task → Option Task} :
    Action.Prepends fun st => onTask u (checkTask st) := by
  intro l l' task
  simp only [onTask, checkTask, Option.bind_eq_bind, Option.bind_some]
  cases u (task.getD taskInit) <;> rfl

theorem taskAction_prepends : taskAction.Prepends := by
  intro l l' task
  ext st'
  rw [Option.map_eq_some_iff, taskAction_iff]
  constructor
  · rintro ⟨task, a₁, a₂, args, envp, htask, hshift, hwrite, hpush, henvp, rfl⟩
    exact ⟨_, taskAction_iff.mpr ⟨task, a₁, a₂, args, envp, htask, hshift, hwrite, hpush, henvp,
      rfl⟩, rfl⟩
  · rintro ⟨st, hst, rfl⟩
    obtain ⟨task, a₁, a₂, args, envp, htask, hshift, hwrite, hpush, henvp, rfl⟩ :=
      taskAction_iff.mp hst
    exact ⟨task, a₁, a₂, args, envp, htask, hshift, hwrite, hpush, henvp, rfl⟩

theorem optsAction_prepends (b : List Opt) : (optsAction b).Prepends :=
  optsAction_induction .skip (fun _ _ => .seq) (fun _ => onTask_prepends)
    (fun _ => onTask_prepends) (fun _ => onTask_prepends) (fun _ => onTask_prepends)
    (fun _ => onTask_prepends) b

theorem blocksAction_prepends (bs : List (List Opt)) : (blocksAction bs).Prepends := by
  induction bs using List.reverseRecOn with
  | nil => exact .skip
  | append_singleton bs b ih =>
      rw [blocksAction_append]
      exact ih.seq ((optsAction_prepends b).seq taskAction_prepends)

/-! ## The task that is gone on with -/

/-- The two tasks differ in what an option sets anew, at most. -/
structure Task.SameArrays (task task' : Task) : Prop where
  pid : task.pid = task'.pid
  startCount : task.startCount = task'.startCount
  status : task.status = task'.status
  args : task.args = task'.args
  envp : task.envp = task'.envp

/-- The action does to the arrays what it does to those of another task. -/
def Action.Uniform (f : Action) : Prop :=
  ∀ st st' u u', (st.task.getD taskInit).SameArrays (st'.task.getD taskInit) → f st = some u →
    f st' = some u' → (u.task.getD taskInit).SameArrays (u'.task.getD taskInit)

theorem Action.Uniform.skip : Action.skip.Uniform := by
  intro st st' u u' h hu hu'
  cases hu
  cases hu'
  exact h

theorem Action.Uniform.seq (hf : f.Uniform) (hg : g.Uniform) : (f.seq g).Uniform := by
  intro st st' u u' h hu hu'
  obtain ⟨st₁, hf₁, hu⟩ := Option.bind_eq_some_iff.mp hu
  obtain ⟨st₁', hf₁', hu'⟩ := Option.bind_eq_some_iff.mp hu'
  exact hg _ _ _ _ (hf _ _ _ _ h hf₁ hf₁') hu hu'

theorem onTask_uniform {u : Task → Option Task}
    (h : ∀ task task' v v', task.SameArrays task' → u task = some v → u task' = some v' →
      v.SameArrays v') : Action.Uniform fun st => onTask u (checkTask st) := by
  intro st st' w w' hst hw hw'
  obtain ⟨v, hv, hw⟩ := Option.bind_eq_some_iff.mp hw
  obtain ⟨v', hv', hw'⟩ := Option.bind_eq_some_iff.mp hw'
  cases hw
  cases hw'
  exact h _ _ v v' hst hv hv'

theorem argAction_uniform (s : Str) : (argAction s).Uniform := by
  refine onTask_uniform fun task task' v v' h hv hv' => ?_
  obtain ⟨a, ha, hv⟩ := Option.bind_eq_some_iff.mp hv
  obtain ⟨a', ha', hv'⟩ := Option.bind_eq_some_iff.mp hv'
  rw [h.args, ha'] at ha
  cases ha
  cases hv
  cases hv'
  exact ⟨h.pid, h.startCount, h.status, rfl, h.envp⟩

theorem envAction_uniform (s : Str) : (envAction s).Uniform := by
  refine onTask_uniform fun task task' v v' h hv hv' => ?_
  obtain ⟨a, ha, hv⟩ := Option.bind_eq_some_iff.mp hv
  obtain ⟨a', ha', hv'⟩ := Option.bind_eq_some_iff.mp hv'
  rw [h.envp, ha'] at ha
  cases ha
  cases hv
  cases hv'
  exact ⟨h.pid, h.startCount, h.status, h.args, rfl⟩

/-- An option that sets a member anew. -/
theorem onTask_uniform_set {u : Task → Task} (h : ∀ task, (u task).SameArrays task) :
    Action.Uniform fun st => onTask (fun task => some (u task)) (checkTask st) := by
  refine onTask_uniform fun task task' v v' hs hv hv' => ?_
  cases hv
  cases hv'
  have hl := h task
  have hr := h task'
  exact ⟨hl.pid.trans (hs.pid.trans hr.pid.symm),
    hl.startCount.trans (hs.startCount.trans hr.startCount.symm),
    hl.status.trans (hs.status.trans hr.status.symm),
    hl.args.trans (hs.args.trans hr.args.symm), hl.envp.trans (hs.envp.trans hr.envp.symm)⟩

theorem optsAction_uniform (b : List Opt) : (optsAction b).Uniform :=
  optsAction_induction .skip (fun _ _ => .seq)
    (fun _ => onTask_uniform_set fun _ => ⟨rfl, rfl, rfl, rfl, rfl⟩)
    (fun _ => onTask_uniform_set fun _ => ⟨rfl, rfl, rfl, rfl, rfl⟩) argAction_uniform
    envAction_uniform (fun _ => onTask_uniform_set fun _ => ⟨rfl, rfl, rfl, rfl, rfl⟩) b

/-- Options without words and without entries leave the arrays alone. -/
theorem optsAction_sameArrays (hw : b.flatMap Opt.words = []) (he : b.flatMap Opt.entries = [])
    (h : optsAction b st = some st') :
    (st'.task.getD taskInit).SameArrays (st.task.getD taskInit) := by
  induction b using List.reverseRecOn generalizing st' with
  | nil =>
      cases h
      exact ⟨rfl, rfl, rfl, rfl, rfl⟩
  | append_singleton b x ih =>
      rw [List.flatMap_append, List.append_eq_nil_iff, List.flatMap_singleton] at hw he
      rw [optsAction_append] at h
      obtain ⟨st₁, h₁, h⟩ := Option.bind_eq_some_iff.mp h
      obtain ⟨hpid, hcount, hstatus, hargs, henvp⟩ := ih hw.1 he.1 h₁
      cases x with
      | env s => cases he.2
      | args ws =>
          obtain rfl : ws = [] := hw.2
          cases h
          exact ⟨hpid, hcount, hstatus, hargs, henvp⟩
      | name s | path s | dir s =>
          cases h
          exact ⟨hpid, hcount, hstatus, hargs, henvp⟩

/-! ## The first block of the next load -/

/-- The block `b` sets anew what `left` has set, and `left` has nothing that
stays. -/
structure Overwrites (b left : List Opt) : Prop where
  name : b.filterMap Opt.name? = [] → left.filterMap Opt.name? = []
  path : b.filterMap Opt.path? = [] → left.filterMap Opt.path? = []
  dir : b.filterMap Opt.dir? = [] → left.filterMap Opt.dir? = []
  args : left.flatMap Opt.words = []
  env : left.flatMap Opt.entries = []

theorem getLast?_append_iff {β : Type} {xs ys : List β} :
    (xs ++ ys).getLast? = ys.getLast? ↔ (ys = [] → xs = []) := by
  rw [List.getLast?_append]
  cases hy : ys.getLast? with
  | none => simp [List.getLast?_eq_none_iff.mp hy]
  | some y =>
      have hne : ys ≠ [] := by
        rintro rfl
        cases hy
      simp [hne]

/-- A task that has what `left` and `b` say has what `b` says alone. -/
theorem Yields.overwrites {task : Task} {left : List Opt}
    (h : Yields task (blockOptions (left ++ b))) (h' : Yields task (blockOptions b)) :
    Overwrites b left := by
  have hname := h.name.symm.trans h'.name
  have hpath := h.path.symm.trans h'.path
  have hdir := h.dir.symm.trans h'.dir
  rw [blockOptions_name, blockOptions_name, List.filterMap_append] at hname
  rw [blockOptions_path, blockOptions_path, List.filterMap_append] at hpath
  rw [blockOptions_dir, blockOptions_dir, List.filterMap_append] at hdir
  refine ⟨getLast?_append_iff.mp hname, getLast?_append_iff.mp hpath, getLast?_append_iff.mp hdir,
    ?_, ?_⟩
  · have hlen := congrArg List.length (h.args.unique h'.args)
    simp only [blockOptions_args, List.flatMap_append, List.map_append, List.length_append,
      List.length_cons, List.length_map, List.length_nil] at hlen
    exact List.eq_nil_of_length_eq_zero (by omega)
  · have henv := h.env
    have henv' := h'.env
    have hno := h'.no_env
    simp only [blockOptions_env, List.flatMap_append] at henv henv' hno
    by_contra hne
    have hc := henv (by simp [hne])
    by_cases hb : b.flatMap Opt.entries = []
    · -- `envp` is `NULL`
      obtain ⟨junk, hslots, -⟩ := hc
      rw [hno hb] at hslots
      simp at hslots
    · have hlen := congrArg List.length (hc.unique (henv' hb))
      simp only [List.map_append, List.length_append, List.length_map, List.length_cons,
        List.length_nil] at hlen
      exact hne (List.eq_nil_of_length_eq_zero (by omega))

theorem blockOptions_foldl {left : List Opt} :
    b.foldl Options.add (blockOptions left) = blockOptions (left ++ b) :=
  (List.foldl_append ..).symm

/-- Two tasks that have the options of `left ++ b` and of `b`, and the same
arrays. -/
theorem Reads.eq_of_overwrites {task task' : Task} {left : List Opt}
    (h : Reads task (blockOptions (left ++ b))) (h' : Reads task' (blockOptions b))
    (ha : task.SameArrays task') (ho : Overwrites b left) : task = task' := by
  have hname : task.name = task'.name := by
    rw [h.name, h'.name, blockOptions_name, blockOptions_name, List.filterMap_append]
    exact getLast?_append_iff.mpr ho.name
  have hpath : task.path = task'.path := by
    rw [h.path, h'.path, blockOptions_path, blockOptions_path, List.filterMap_append]
    exact getLast?_append_iff.mpr ho.path
  have hdir : task.dir = task'.dir := by
    rw [h.dir, h'.dir, blockOptions_dir, blockOptions_dir, List.filterMap_append]
    exact getLast?_append_iff.mpr ho.dir
  obtain ⟨hpid, hcount, hstatus, hargs, henvp⟩ := ha
  cases task
  cases task'
  simp_all

/-- The first block after `left` was left behind, and the same block alone. -/
theorem first_block_iff {left : List Opt} (h : optsAction left st = some st') (hst : st.task = none)
    (hb : ∃ x ∈ b, x.creates = true) :
    ∃ task task', (optsAction b).seq taskAction ⟨[], st'.task⟩ = some ⟨[task], none⟩ ∧
      (optsAction b).seq taskAction ⟨[], none⟩ = some ⟨[task'], none⟩ ∧
      (task = task' ↔ Overwrites b left) := by
  have hr : st'.Reads (blockOptions left) := optsAction_adds.reads (reads_of_task hst) h
  have hleft : ParseState.Reads ⟨[], st'.task⟩ (blockOptions left) := hr
  obtain ⟨⟨l₁, t₁⟩, h₁, rfl, hr₁⟩ := optsAction_adds_foldl (b := b) _ hleft
  obtain ⟨⟨l₂, t₂⟩, h₂, rfl, hr₂⟩ := optsAction_adds (b := b) ⟨[], none⟩ reads_init
  obtain ⟨u₁, rfl⟩ := Option.isSome_iff_exists.mp (optsAction_creates hb _ _ h₁)
  obtain ⟨u₂, rfl⟩ := Option.isSome_iff_exists.mp (optsAction_creates hb _ _ h₂)
  rw [blockOptions_foldl] at hr₁
  obtain ⟨task, htask, hy⟩ := taskAction_spec (l := []) hr₁
  obtain ⟨task', htask', hy'⟩ := taskAction_spec (l := []) hr₂
  refine ⟨task, task', by rw [Action.seq, h₁]; exact htask, by rw [Action.seq, h₂]; exact htask',
    fun heq => ?_, fun ho => ?_⟩
  · subst heq
    exact hy.overwrites hy'
  · have hsame := optsAction_sameArrays ho.args ho.env h
    rw [hst] at hsame
    have hu : u₁ = u₂ :=
      hr₁.eq_of_overwrites hr₂ (optsAction_uniform b _ _ _ _ hsame h₁ h₂) ho
    subst hu
    rw [Option.getD_some] at htask htask'
    rw [htask] at htask'
    cases htask'
    rfl

/-! ## The next load -/

/-- After complete blocks there is no task under construction. -/
theorem blocksAction_task (hst : st.task = none) (h : blocksAction bs st = some st') :
    st'.task = none := by
  cases bs using List.reverseRecOn with
  | nil =>
      cases h
      exact hst
  | append_singleton bs b =>
      rw [blocksAction_append, ← Action.seq_assoc] at h
      obtain ⟨_, -, h⟩ := Option.bind_eq_some_iff.mp h
      exact taskAction_task h

/-- A block that stores nothing makes the parse fault. -/
theorem blocksAction_fault (h : [] ∈ bs) (hst : st.task = none) : blocksAction bs st = none := by
  induction bs generalizing st with
  | nil => cases h
  | cons b bs ih =>
      rw [blocksAction_cons_run]
      cases hb : (optsAction b).seq taskAction st with
      | none => rfl
      | some st₁ =>
          obtain ⟨st₂, -, htask⟩ := Option.bind_eq_some_iff.mp hb
          rcases List.mem_cons.mp h with rfl | h
          · -- there is no task at the brace
            obtain ⟨_, _, _, _, _, hsome, -⟩ := taskAction_iff.mp hb
            rw [hst] at hsome
            cases hsome
          · exact ih h (taskAction_task htask)

theorem blocksAction_some (hc : ∀ b ∈ bs, ∀ x ∈ b, x.creates = true) (h : [] ∉ bs) :
    ∃ tasks, blocksAction bs ⟨[], none⟩ = some ⟨tasks, none⟩ := by
  have hcreate : ∀ b ∈ bs, ∃ x ∈ b, x.creates = true := fun b hb => by
    obtain ⟨x, hx⟩ := List.exists_mem_of_ne_nil b fun hnil => h (hnil ▸ hb)
    exact ⟨x, hx, hc b hb x hx⟩
  obtain ⟨tasks, hrun, -⟩ := blocks_mean (l := []) hcreate
  exact ⟨tasks, by rw [hrun, List.append_nil]⟩

/-- What a parse leaves in the list, the completed blocks have put there. -/
theorem loadResult_yyparse (hst : st.Reads o) :
    loadResult (yyparse pos st ts).loaded =
      (blocksAction (pos.blocks [] ts).1 st).map fun st' => (pos.accepts ts, st'.tasksList) := by
  rw [yyparse_blocks (b := []) hst rfl, parseAction, Action.seq]
  cases hbs : blocksAction (pos.blocks [] ts).1 st with
  | none => rfl
  | some st' =>
      have hr : ∃ o', st'.Reads o' := by
        cases hb : (pos.blocks [] ts).1 using List.reverseRecOn with
        | nil =>
            rw [hb] at hbs
            cases hbs
            exact ⟨o, hst⟩
        | append_singleton bs b =>
            rw [hb, blocksAction_append, ← Action.seq_assoc] at hbs
            obtain ⟨_, -, htask⟩ := Option.bind_eq_some_iff.mp hbs
            exact ⟨{}, reads_of_task (taskAction_task htask)⟩
      obtain ⟨o', hr⟩ := hr
      obtain ⟨st₁, h₁, hl, -⟩ := optsAction_adds_foldl (b := (pos.blocks [] ts).2) st' hr
      simp only [Option.bind_some, h₁, loadResult, Option.map_some, hl]

/-- The text is rejected by the parser. -/
def Rejected (c : Str) : Prop := ∃ st, yyparse .tasks freshState (yylex c) = .syntaxError st

/-- Loaded after `c₁` in the same process, and so with the same context, `c₂` gives what it
gives alone. -/
def LoadedAsAlone (k : ConfCalls) (c₁ c₂ : Str) : Prop :=
  loadResult ((confLoad k c₁ freshState).bind fun r => confLoad k c₂ ⟨[], r.2.task⟩) =
    loadResult (confLoad k c₂ freshState)

/-- What `left` has stored is of no consequence to the blocks `bs`. -/
def Harmless (left : List Opt) (bs : List (List Opt)) : Prop :=
  left = [] ∨ match bs with
    | [] => True
    | b :: rest => [] ∈ rest ∨ b ≠ [] ∧ Overwrites b left

/-- What a rejected text leaves behind is what its unfinished block has stored. -/
theorem Rejected.leaves {k : ConfCalls} {c : Str} (hk : k.Succeed) (h : Rejected c) :
    ∃ st st', confLoad k c freshState = some (false, st') ∧ st.task = none ∧
      optsAction (unfinished (yylex c)) st = some st' := by
  obtain ⟨st', hst'⟩ := h
  have hc : c ≠ [] := by
    rintro rfl
    cases hst'
  have hrun : (yyparse .tasks freshState (yylex c)).loaded = _ :=
    yyparse_blocks (b := []) reads_init rfl
  rw [hst', Outcome.loaded] at hrun
  obtain ⟨st₂, hact, heq⟩ := Option.map_eq_some_iff.mp hrun.symm
  obtain rfl : st₂ = st' := (Prod.mk.inj heq).2
  obtain ⟨st, hblocks, hopts⟩ := Option.bind_eq_some_iff.mp hact
  exact ⟨st, st₂, by rw [confLoad_cons hk hc, hst', Outcome.loaded], blocksAction_task rfl hblocks,
    hopts⟩

/-- The blocks after the first one put the same tasks before another one. -/
theorem blocks_after_iff {task task' : Task} (hc : ∀ b ∈ bs, ∀ x ∈ b, x.creates = true) :
    (blocksAction bs ⟨[task], none⟩).map ParseState.tasksList =
      (blocksAction bs ⟨[task'], none⟩).map ParseState.tasksList ↔ [] ∈ bs ∨ task = task' := by
  by_cases hfault : [] ∈ bs
  · rw [blocksAction_fault hfault rfl, blocksAction_fault hfault rfl]
    exact iff_of_true rfl (Or.inl hfault)
  · obtain ⟨tasks, hrun⟩ := blocksAction_some hc hfault
    have hafter : ∀ task, blocksAction bs ⟨[task], none⟩ = some ⟨tasks ++ [task], none⟩ := by
      intro task
      have := blocksAction_prepends bs [] [task] none
      rw [hrun] at this
      exact this
    rw [hafter, hafter, or_iff_right hfault]
    simp

/-- The blocks of the next load, where something was left behind. -/
theorem blocks_alone_iff {left : List Opt} (h : optsAction left st = some st')
    (hst : st.task = none) (hleft : left ≠ []) (hc : ∀ x ∈ left, x.creates = true)
    (hbs : ∀ b ∈ bs, ∀ x ∈ b, x.creates = true) :
    (blocksAction bs ⟨[], st'.task⟩).map ParseState.tasksList =
      (blocksAction bs ⟨[], none⟩).map ParseState.tasksList ↔ Harmless left bs := by
  unfold Harmless
  rw [or_iff_right hleft]
  cases bs with
  | nil => exact iff_of_true rfl trivial
  | cons b rest =>
      have hrest : ∀ b ∈ rest, ∀ x ∈ b, x.creates = true := fun b hb =>
        hbs b (List.mem_cons_of_mem _ hb)
      rw [blocksAction_cons_run, blocksAction_cons_run]
      cases b with
      | nil =>
          -- alone the block faults at its brace
          obtain ⟨x, hx⟩ := List.exists_mem_of_ne_nil left hleft
          obtain ⟨u, hu⟩ := Option.isSome_iff_exists.mp (optsAction_creates ⟨x, hx, hc x hx⟩ _ _ h)
          have hr := optsAction_adds.reads (reads_of_task hst) h
          rw [ParseState.Reads, hu, Option.getD_some] at hr
          obtain ⟨task, htask, -⟩ := taskAction_spec (l := []) hr
          have hleft₁ : (optsAction []).seq taskAction ⟨[], st'.task⟩ = some ⟨[task], none⟩ := by
            rw [hu]
            exact htask
          have halone : (optsAction []).seq taskAction ⟨[], none⟩ = none := rfl
          rw [hleft₁, halone, Option.bind_some, Option.bind_none, Option.map_none,
            Option.map_eq_none_iff]
          simp only [ne_eq, not_true_eq_false, false_and, or_false]
          constructor
          · intro hnone
            by_contra hno
            obtain ⟨tasks, hrun⟩ := blocksAction_some hrest hno
            have := blocksAction_prepends rest [] [task] none
            rw [List.nil_append, hnone, hrun] at this
            cases this
          · exact fun hfault => blocksAction_fault hfault rfl
      | cons x b =>
          obtain ⟨task, task', h₁, h₂, hiff⟩ := first_block_iff (b := x :: b) h hst
            ⟨x, List.mem_cons_self, hbs _ List.mem_cons_self x List.mem_cons_self⟩
          rw [h₁, h₂, Option.bind_some, Option.bind_some, blocks_after_iff hrest, hiff]
          simp

theorem map_pair_iff {β γ : Type} {x y : Option β} {g : β → γ} {c : Bool} :
    x.map (fun v => (c, g v)) = y.map (fun v => (c, g v)) ↔ x.map g = y.map g := by
  cases x <;> cases y <;> simp

/-- **After a rejected text.** The next load gives what it gives alone if and only
if the rejected text has stored nothing in the block that it breaks off in, or
the next one completes no block, or a block behind its first one stores nothing
and faults, or its first block sets anew all that is left. -/
theorem loaded_as_alone_iff {k : ConfCalls} {c₁ c₂ : Str} (hk : k.Succeed) (hrej : Rejected c₁) :
    LoadedAsAlone k c₁ c₂ ↔ Harmless (unfinished (yylex c₁)) (completed (yylex c₂)) := by
  obtain ⟨st, st', hload, hst, hopts⟩ := hrej.leaves hk
  unfold LoadedAsAlone
  rw [hload, Option.bind_some]
  by_cases hc₂ : c₂ = []
  · subst hc₂
    rw [confLoad_nil hk, confLoad_nil hk]
    exact iff_of_true rfl (Or.inr trivial)
  have hr := optsAction_adds.reads (reads_of_task hst) hopts
  have hafter : loadResult (yyparse .tasks ⟨[], st'.task⟩ (yylex c₂)).loaded = _ :=
    loadResult_yyparse hr
  have halone : loadResult (yyparse .tasks freshState (yylex c₂)).loaded = _ :=
    loadResult_yyparse reads_init
  rw [confLoad_cons hk hc₂, confLoad_cons hk hc₂, hafter, halone, map_pair_iff]
  by_cases hleft : unfinished (yylex c₁) = []
  · rw [hleft] at hopts
    cases hopts
    rw [hst]
    exact iff_of_true rfl (Or.inl hleft)
  · obtain ⟨-, hcreates⟩ := Pos.blocks_creates .tasks (yylex c₁) (b := []) nofun
    obtain ⟨hblocks, -⟩ := Pos.blocks_creates .tasks (yylex c₂) (b := []) nofun
    exact blocks_alone_iff hopts hst hleft hcreates hblocks

/-- `task{name s;dir /x` and `task{dir /y;name t;}`. -/
theorem loaded_as_alone_iff_dir :
    LoadedAsAlone ⟨true, true, true, true⟩
        [116, 97, 115, 107, 123, 110, 97, 109, 101, 32, 115, 59, 100, 105, 114, 32, 47, 120]
        [116, 97, 115, 107, 123, 100, 105, 114, 32, 47, 121, 59, 110, 97, 109, 101, 32, 116, 59,
          125] ↔
      Harmless
        (unfinished (yylex
          [116, 97, 115, 107, 123, 110, 97, 109, 101, 32, 115, 59, 100, 105, 114, 32, 47, 120]))
        (completed (yylex
          [116, 97, 115, 107, 123, 100, 105, 114, 32, 47, 121, 59, 110, 97, 109, 101, 32, 116, 59,
            125])) := by
  refine loaded_as_alone_iff ⟨rfl, rfl, rfl, rfl⟩ ?_
  have htok : yylex
      [116, 97, 115, 107, 123, 110, 97, 109, 101, 32, 115, 59, 100, 105, 114, 32, 47, 120] =
      [.tokenTask, .openBrace, .tokenName, .alphaWord [115], .semicolon, .tokenDir,
        .path [47, 120]] := by decide +kernel
  rw [Rejected, htok]
  exact ⟨_, rfl⟩

/-- `task{dir /x;` and `task{name t;}`: the task of the second text gets the
directory of the first one. -/
theorem not_loadedAsAlone :
    ¬∀ k : ConfCalls, k.Succeed → ∀ c₁ c₂, Rejected c₁ → LoadedAsAlone k c₁ c₂ := by
  intro h
  have h₁ : yylex [116, 97, 115, 107, 123, 100, 105, 114, 32, 47, 120, 59] =
      [.tokenTask, .openBrace, .tokenDir, .path [47, 120], .semicolon] := by decide +kernel
  have h₂ : yylex [116, 97, 115, 107, 123, 110, 97, 109, 101, 32, 116, 59, 125] =
      [.tokenTask, .openBrace, .tokenName, .alphaWord [116], .semicolon, .endBrace] := by
    decide +kernel
  have hrej : Rejected [116, 97, 115, 107, 123, 100, 105, 114, 32, 47, 120, 59] := by
    rw [Rejected, h₁]
    exact ⟨_, rfl⟩
  have hk : ConfCalls.Succeed ⟨true, true, true, true⟩ := ⟨rfl, rfl, rfl, rfl⟩
  have hsame := h _ hk _ [116, 97, 115, 107, 123, 110, 97, 109, 101, 32, 116, 59, 125] hrej
  have hleft : confLoad ⟨true, true, true, true⟩
      [116, 97, 115, 107, 123, 100, 105, 114, 32, 47, 120, 59] freshState =
      some (false, ⟨[], some { dir := some [47, 120] }⟩) := by
    rw [confLoad_cons hk (by simp), h₁]
    rfl
  rw [LoadedAsAlone, hleft, Option.bind_some, confLoad_cons hk (by simp),
    confLoad_cons hk (by simp), h₂] at hsame
  exact absurd hsame (by decide)

end

end Bitzer
