import Bitzer.Conf.Build
import Bitzer.Conf.Gram

/-!
# What a configuration means

A token sequence that derives from `tasks`, as the options of its blocks, and
what the parse makes of it: a task for each block, whose members are read off
the options of that block alone. A block without an option that creates the
task is the one thing that goes wrong.
-/

namespace Bitzer

/-! ## Blocks as lists of options -/

/-- An option with its values. -/
inductive Opt where
  | name (s : Str)
  | path (s : Str)
  | args (ws : List Str)
  | env (s : Str)
  | dir (s : Str)
  deriving DecidableEq

inductive Words : List Token → List Str → Prop
  | nil : Words [] []
  | snoc {ts us : List Token} {ws : List Str} {w : Str} : Words ts ws → Arg us w →
      Words (ts ++ us) (ws ++ [w])

/-- The tokens of an option. -/
inductive Writ : List Token → Opt → Prop
  | name {ts : List Token} {s : Str} : TaskName ts s →
      Writ (.tokenName :: ts ++ [.semicolon]) (.name s)
  | path (s : Str) : Writ [.tokenPath, .path s, .semicolon] (.path s)
  | args {ts : List Token} {ws : List Str} : Words ts ws →
      Writ (.tokenArgs :: ts ++ [.semicolon]) (.args ws)
  | env (s : Str) : Writ [.tokenEnv, .envar s, .semicolon] (.env s)
  | dir (s : Str) : Writ [.tokenDir, .path s, .semicolon] (.dir s)

inductive Writs : List Token → List Opt → Prop
  | nil : Writs [] []
  | snoc {ts us : List Token} {b : List Opt} {o : Opt} : Writs ts b → Writ us o →
      Writs (ts ++ us) (b ++ [o])

/-- The token sequence derives from `tasks`; the blocks are those of the
derivation. -/
inductive Derives : List Token → List (List Opt) → Prop
  | nil : Derives [] []
  | snoc {ts us : List Token} {bs : List (List Opt)} {b : List Opt} : Derives ts bs → Writs us b →
      Derives (ts ++ (.tokenTask :: .openBrace :: us ++ [.endBrace])) (bs ++ [b])

theorem Derives.eq_nil {ts : List Token} (h : Derives ts []) : ts = [] := by
  generalize hbs : ([] : List (List Opt)) = bs at h
  cases h with
  | nil => rfl
  | snoc _ _ => simp at hbs

/-! ## The actions of a block -/

def argsAction : List Str → Action := List.foldl (fun f w => f.seq (argAction w)) .skip

/-- The actions of an option. -/
def Opt.action : Opt → Action
  | .name s => nameAction s
  | .path s => pathAction s
  | .args ws => argsAction ws
  | .env s => envAction s
  | .dir s => dirAction s

def optsAction : List Opt → Action := List.foldl (fun f o => f.seq o.action) .skip

def blocksAction : List (List Opt) → Action :=
  List.foldl (fun f b => f.seq ((optsAction b).seq taskAction)) .skip

theorem argsAction_append {ws : List Str} {w : Str} :
    argsAction (ws ++ [w]) = (argsAction ws).seq (argAction w) := by
  rw [argsAction, List.foldl_append, List.foldl_cons, List.foldl_nil]

theorem optsAction_append {b : List Opt} {o : Opt} :
    optsAction (b ++ [o]) = (optsAction b).seq o.action := by
  rw [optsAction, List.foldl_append, List.foldl_cons, List.foldl_nil]

theorem blocksAction_append {bs : List (List Opt)} {b : List Opt} :
    blocksAction (bs ++ [b]) = (blocksAction bs).seq ((optsAction b).seq taskAction) := by
  rw [blocksAction, List.foldl_append, List.foldl_cons, List.foldl_nil]

section
variable {ts : List Token} {f : Action}

theorem argsList_iff : ArgsList ts f ↔ ∃ ws, Words ts ws ∧ f = argsAction ws := by
  constructor
  · intro h
    induction h with
    | nil => exact ⟨[], .nil, rfl⟩
    | snoc _ harg ih =>
        obtain ⟨ws, hws, rfl⟩ := ih
        exact ⟨_, .snoc hws harg, argsAction_append.symm⟩
  · rintro ⟨ws, h, rfl⟩
    induction h with
    | nil => exact .nil
    | snoc _ harg ih =>
        rw [argsAction_append]
        exact .snoc ih harg

theorem taskOpt_iff : TaskOpt ts f ↔ ∃ o, Writ ts o ∧ f = o.action := by
  constructor
  · intro h
    cases h with
    | name hname => exact ⟨_, .name hname, rfl⟩
    | path s => exact ⟨_, .path s, rfl⟩
    | args hargs =>
        obtain ⟨ws, hws, rfl⟩ := argsList_iff.mp hargs
        exact ⟨_, .args hws, rfl⟩
    | env s => exact ⟨_, .env s, rfl⟩
    | dir s => exact ⟨_, .dir s, rfl⟩
  · rintro ⟨o, h, rfl⟩
    cases h with
    | name hname => exact .name hname
    | path s => exact .path s
    | args hws => exact .args (argsList_iff.mpr ⟨_, hws, rfl⟩)
    | env s => exact .env s
    | dir s => exact .dir s

theorem taskOpts_iff : TaskOpts ts f ↔ ∃ b, Writs ts b ∧ f = optsAction b := by
  constructor
  · intro h
    induction h with
    | nil => exact ⟨[], .nil, rfl⟩
    | snoc _ hopt ih =>
        obtain ⟨b, hb, rfl⟩ := ih
        obtain ⟨o, ho, rfl⟩ := taskOpt_iff.mp hopt
        exact ⟨_, .snoc hb ho, optsAction_append.symm⟩
  · rintro ⟨b, h, rfl⟩
    induction h with
    | nil => exact .nil
    | snoc _ hopt ih =>
        rw [optsAction_append]
        exact .snoc ih (taskOpt_iff.mpr ⟨_, hopt, rfl⟩)

/-- The derivations of `tasks`, read either way. -/
theorem tasks_iff : Tasks ts f ↔ ∃ bs, Derives ts bs ∧ f = blocksAction bs := by
  constructor
  · intro h
    induction h with
    | nil => exact ⟨[], .nil, rfl⟩
    | snoc _ hblock ih =>
        obtain ⟨bs, hbs, rfl⟩ := ih
        cases hblock with
        | block hopts =>
            obtain ⟨b, hb, rfl⟩ := taskOpts_iff.mp hopts
            exact ⟨_, .snoc hbs hb, blocksAction_append.symm⟩
  · rintro ⟨bs, h, rfl⟩
    induction h with
    | nil => exact .nil
    | snoc _ hb ih =>
        rw [blocksAction_append]
        exact .snoc ih (.block (taskOpts_iff.mpr ⟨_, hb, rfl⟩))

end

/-- What the actions of the options have in common, a block has. -/
theorem optsAction_induction {P : Action → Prop} (hskip : P .skip)
    (hseq : ∀ f g, P f → P g → P (f.seq g)) (hname : ∀ s, P (nameAction s))
    (hpath : ∀ s, P (pathAction s)) (harg : ∀ s, P (argAction s)) (henv : ∀ s, P (envAction s))
    (hdir : ∀ s, P (dirAction s)) (b : List Opt) : P (optsAction b) := by
  have hargs : ∀ ws, P (argsAction ws) := by
    intro ws
    induction ws using List.reverseRecOn with
    | nil => exact hskip
    | append_singleton ws w ih =>
        rw [argsAction_append]
        exact hseq _ _ ih (harg w)
  induction b using List.reverseRecOn with
  | nil => exact hskip
  | append_singleton b x ih =>
      rw [optsAction_append]
      refine hseq _ _ ih ?_
      cases x with
      | name s => exact hname s
      | path s => exact hpath s
      | args ws => exact hargs ws
      | env s => exact henv s
      | dir s => exact hdir s

/-! ## The options of a block together -/

namespace Opt

def name? : Opt → Option Str
  | .name s => some s
  | _ => none

def path? : Opt → Option Str
  | .path s => some s
  | _ => none

def dir? : Opt → Option Str
  | .dir s => some s
  | _ => none

def entries : Opt → List Str
  | .env s => [s]
  | _ => []

def words : Opt → List Str
  | .args ws => ws
  | _ => []

/-- All values of the option. -/
def values : Opt → List Str
  | .name s => [s]
  | .path s => [s]
  | .args ws => ws
  | .env s => [s]
  | .dir s => [s]

/-- The option runs `check_task`. -/
def creates : Opt → Bool
  | .args ws => !ws.isEmpty
  | _ => true

end Opt

def Options.add (o : Options) : Opt → Options
  | .name s => { o with name := some s }
  | .path s => { o with path := some s }
  | .args ws => { o with args := o.args ++ ws }
  | .env s => { o with env := o.env ++ [s] }
  | .dir s => { o with dir := some s }

/-- What the options of a block say together. -/
def blockOptions : List Opt → Options := List.foldl Options.add {}

theorem blockOptions_append {b : List Opt} {x : Opt} :
    blockOptions (b ++ [x]) = (blockOptions b).add x := by
  rw [blockOptions, List.foldl_append, List.foldl_cons, List.foldl_nil]

section
variable {b : List Opt}

/-- A member that each option of one kind sets anew: the last one counts. -/
theorem blockOptions_last {g : Options → Option Str} {k : Opt → Option Str} (h0 : g {} = none)
    (h : ∀ o x, g (o.add x) = (k x).or (g o)) :
    g (blockOptions b) = (b.filterMap k).getLast? := by
  induction b using List.reverseRecOn with
  | nil => exact h0
  | append_singleton b x ih =>
      rw [blockOptions_append, h, ih, List.filterMap_append]
      cases hk : k x <;> simp [hk]

/-- A member that collects the values of one kind, in order. -/
theorem blockOptions_all {g : Options → List Str} {k : Opt → List Str} (h0 : g {} = [])
    (h : ∀ o x, g (o.add x) = g o ++ k x) : g (blockOptions b) = b.flatMap k := by
  induction b using List.reverseRecOn with
  | nil => exact h0
  | append_singleton b x ih =>
      rw [blockOptions_append, h, ih, List.flatMap_append]
      simp

theorem blockOptions_name : (blockOptions b).name = (b.filterMap Opt.name?).getLast? :=
  blockOptions_last rfl fun _ x => by cases x <;> rfl

theorem blockOptions_path : (blockOptions b).path = (b.filterMap Opt.path?).getLast? :=
  blockOptions_last rfl fun _ x => by cases x <;> rfl

theorem blockOptions_dir : (blockOptions b).dir = (b.filterMap Opt.dir?).getLast? :=
  blockOptions_last rfl fun _ x => by cases x <;> rfl

theorem blockOptions_args : (blockOptions b).args = b.flatMap Opt.words :=
  blockOptions_all rfl fun o x => by cases x <;> simp [Options.add, Opt.words]

theorem blockOptions_env : (blockOptions b).env = b.flatMap Opt.entries :=
  blockOptions_all rfl fun o x => by cases x <;> simp [Options.add, Opt.entries]

end

/-! ## What the actions do -/

theorem argsAction_adds {ws : List Str} {o : Options} :
    (argsAction ws).Adds o { o with args := o.args ++ ws } := by
  induction ws using List.reverseRecOn with
  | nil =>
      rw [List.append_nil]
      exact .skip
  | append_singleton ws w ih =>
      have h := ih.seq (argAction_adds w)
      rw [List.append_assoc] at h
      rw [argsAction_append]
      exact h

theorem Opt.action_adds {x : Opt} {o : Options} : x.action.Adds o (o.add x) := by
  cases x with
  | name s => exact nameAction_adds s
  | path s => exact pathAction_adds s
  | args ws => exact argsAction_adds
  | env s => exact envAction_adds s
  | dir s => exact dirAction_adds s

/-- Options never fault, whatever the block has stored before. -/
theorem optsAction_adds_foldl {b : List Opt} {o : Options} :
    (optsAction b).Adds o (b.foldl Options.add o) := by
  induction b using List.reverseRecOn with
  | nil => exact .skip
  | append_singleton b x ih =>
      rw [optsAction_append, List.foldl_append]
      exact ih.seq Opt.action_adds

theorem optsAction_adds {b : List Opt} : (optsAction b).Adds {} (blockOptions b) :=
  optsAction_adds_foldl

/-- The action leaves a task behind. -/
def Action.Creates (f : Action) : Prop :=
  ∀ st st' : ParseState, f st = some st' → st'.task.isSome = true

theorem Action.Creates.seq {f g : Action} (hg : g.Creates) : (f.seq g).Creates := by
  intro st st' h
  obtain ⟨st₁, -, h⟩ := Option.bind_eq_some_iff.mp h
  exact hg st₁ st' h

theorem onTask_creates {u : Task → Option Task} {v : ParseState → ParseState} :
    Action.Creates fun st => onTask u (v st) := by
  intro st st' h
  obtain ⟨_, -, h⟩ := Option.bind_eq_some_iff.mp h
  obtain ⟨_, -, h⟩ := Option.bind_eq_some_iff.mp h
  cases h
  rfl

theorem Opt.action_creates {x : Opt} (h : x.creates = true) : x.action.Creates := by
  cases x with
  | args ws =>
      cases ws using List.reverseRecOn with
      | nil => cases h
      | append_singleton ws w =>
          rw [Opt.action, argsAction_append]
          exact onTask_creates.seq
  | _ => exact onTask_creates

/-- The other option is `args` without words, which runs no action. -/
theorem Opt.action_skip {x : Opt} (h : x.creates = false) : x.action = .skip := by
  cases x with
  | args ws =>
      cases ws with
      | nil => rfl
      | cons w ws => cases h
  | _ => cases h

theorem optsAction_creates {b : List Opt} (h : ∃ x ∈ b, x.creates = true) :
    (optsAction b).Creates := by
  induction b using List.reverseRecOn with
  | nil =>
      obtain ⟨x, hx, -⟩ := h
      cases hx
  | append_singleton b y ih =>
      rw [optsAction_append]
      cases hy : y.creates with
      | true => exact (Opt.action_creates hy).seq
      | false =>
          rw [Opt.action_skip hy, Action.seq_skip]
          obtain ⟨x, hx, hc⟩ := h
          rcases List.mem_append.mp hx with hx | hx
          · exact ih ⟨x, hx, hc⟩
          · obtain rfl := List.mem_singleton.mp hx
            rw [hy] at hc
            cases hc

theorem optsAction_skip {b : List Opt} (h : ∀ x ∈ b, x.creates = false) :
    optsAction b = .skip := by
  induction b using List.reverseRecOn with
  | nil => rfl
  | append_singleton b y ih =>
      rw [optsAction_append, Opt.action_skip (h y (by simp)),
        ih fun x hx => h x (List.mem_append_left _ hx)]
      rfl

/-! ## Whose values a task holds -/

/-- The string is in a slot of the array, used or not. -/
def StrArray.Holds (a : StrArray) (s : Str) : Prop := Slot.str s ∈ a.slots.getD []

section
variable {a a' : StrArray} {s : Str} {v : Slot} {i : Nat}

theorem StrArray.Holds.checkTaskMember {need incr : Nat}
    (h : (a.checkTaskMember need incr).Holds s) : a.Holds s := by
  unfold StrArray.checkTaskMember at h
  split at h
  · have hmem : Slot.str s ∈ (a.slots.getD []).take (a.total + incr) ++
        List.replicate (a.total + incr - (a.slots.getD []).length) .indeterminate := h
    rcases List.mem_append.mp hmem with hmem | hmem
    · exact List.mem_of_mem_take hmem
    · cases List.eq_of_mem_replicate hmem
  · exact h

theorem StrArray.Holds.write (hw : a.write i v = some a') (h : a'.Holds s) :
    a.Holds s ∨ v = .str s := by
  obtain ⟨slots, hslots, hw⟩ := Option.bind_eq_some_iff.mp hw
  split at hw
  · cases hw
    rcases List.mem_or_eq_of_mem_set h with h | rfl
    · exact Or.inl (by rwa [StrArray.Holds, hslots])
    · exact Or.inr rfl
  · cases hw

theorem StrArray.Holds.push (hp : a.push v = some a') (h : a'.Holds s) :
    a.Holds s ∨ v = .str s := by
  obtain ⟨b, hw, rfl⟩ := Option.map_eq_some_iff.mp hp
  exact h.write hw

/-- A growing array holds what it held, and the new string. -/
theorem StrArray.Holds.grow {need incr : Nat} {w : Str}
    (hp : (a.checkTaskMember need incr).push (.str w) = some a') (h : a'.Holds s) :
    a.Holds s ∨ s = w := by
  rcases h.push hp with h | h
  · exact Or.inl h.checkTaskMember
  · cases h
    exact Or.inr rfl

theorem StrArray.Holds.shift (hs : a.shift i = some a') (h : a'.Holds s) : a.Holds s := by
  induction i generalizing a with
  | zero =>
      cases hs
      exact h
  | succ i ih =>
      obtain ⟨v, hread, hs⟩ := Option.bind_eq_some_iff.mp hs
      obtain ⟨b, hwrite, hs⟩ := Option.bind_eq_some_iff.mp hs
      rcases (ih hs).write hwrite with h | rfl
      · exact h
      · -- what was moved is in the array
        obtain ⟨slots, hslots, hread⟩ := Option.bind_eq_some_iff.mp hread
        rw [StrArray.Holds, hslots]
        exact List.mem_of_getElem? hread

end

/-- The string is reachable from the task. -/
def Task.Holds (task : Task) (s : Str) : Prop :=
  task.name = some s ∨ task.path = some s ∨ task.dir = some s ∨ task.args.Holds s ∨
    task.envp.Holds s

/-- The action puts nothing but `vs` into the task it works on. -/
def Action.Stores (f : Action) (vs : List Str) : Prop :=
  ∀ st st' : ParseState, f st = some st' → ∀ s, (st'.task.getD taskInit).Holds s →
    (st.task.getD taskInit).Holds s ∨ s ∈ vs

theorem not_holds_init {s : Str} : ¬taskInit.Holds s := by
  rintro (h | h | h | h | h) <;> cases h

theorem Action.Stores.skip : Action.skip.Stores [] := by
  intro st st' h s hs
  cases h
  exact Or.inl hs

theorem Action.Stores.seq {f g : Action} {vs ws : List Str} (hf : f.Stores vs) (hg : g.Stores ws) :
    (f.seq g).Stores (vs ++ ws) := by
  intro st st' h s hs
  obtain ⟨st₁, h₁, h⟩ := Option.bind_eq_some_iff.mp h
  rcases hg st₁ st' h s hs with hs | hs
  · rcases hf st st₁ h₁ s hs with hs | hs
    · exact Or.inl hs
    · exact Or.inr (List.mem_append_left _ hs)
  · exact Or.inr (List.mem_append_right _ hs)

theorem onTask_stores {u : Task → Option Task} {v : Str}
    (h : ∀ task task', u task = some task' → ∀ s, task'.Holds s → task.Holds s ∨ s = v) :
    Action.Stores (fun st => onTask u (checkTask st)) [v] := by
  intro st st' hst s hs
  obtain ⟨task', hu, hst⟩ := Option.bind_eq_some_iff.mp hst
  cases hst
  rcases h _ task' hu s hs with hs | hs
  · exact Or.inl hs
  · exact Or.inr (List.mem_singleton.mpr hs)

theorem argAction_stores (v : Str) : (argAction v).Stores [v] := by
  refine onTask_stores fun task task' hu s hs => ?_
  obtain ⟨args, hpush, hu⟩ := Option.bind_eq_some_iff.mp hu
  cases hu
  rcases hs with hs | hs | hs | hs | hs
  · exact Or.inl (Or.inl hs)
  · exact Or.inl (Or.inr (Or.inl hs))
  · exact Or.inl (Or.inr (Or.inr (Or.inl hs)))
  · rcases hs.grow hpush with hs | rfl
    · exact Or.inl (Or.inr (Or.inr (Or.inr (Or.inl hs))))
    · exact Or.inr rfl
  · exact Or.inl (Or.inr (Or.inr (Or.inr (Or.inr hs))))

theorem envAction_stores (v : Str) : (envAction v).Stores [v] := by
  refine onTask_stores fun task task' hu s hs => ?_
  obtain ⟨envp, hpush, hu⟩ := Option.bind_eq_some_iff.mp hu
  cases hu
  rcases hs with hs | hs | hs | hs | hs
  · exact Or.inl (Or.inl hs)
  · exact Or.inl (Or.inr (Or.inl hs))
  · exact Or.inl (Or.inr (Or.inr (Or.inl hs)))
  · exact Or.inl (Or.inr (Or.inr (Or.inr (Or.inl hs))))
  · rcases hs.grow hpush with hs | rfl
    · exact Or.inl (Or.inr (Or.inr (Or.inr (Or.inr hs))))
    · exact Or.inr rfl

theorem argsAction_stores {ws : List Str} : (argsAction ws).Stores ws := by
  induction ws using List.reverseRecOn with
  | nil => exact .skip
  | append_singleton ws w ih =>
      rw [argsAction_append]
      exact ih.seq (argAction_stores w)

theorem Opt.action_stores {x : Opt} : x.action.Stores x.values := by
  cases x with
  | name v =>
      refine onTask_stores fun task task' hu s hs => ?_
      cases hu
      rcases hs with hs | hs
      · exact Or.inr (Option.some.inj hs).symm
      · exact Or.inl (Or.inr hs)
  | path v =>
      refine onTask_stores fun task task' hu s hs => ?_
      cases hu
      rcases hs with hs | hs | hs
      · exact Or.inl (Or.inl hs)
      · exact Or.inr (Option.some.inj hs).symm
      · exact Or.inl (Or.inr (Or.inr hs))
  | dir v =>
      refine onTask_stores fun task task' hu s hs => ?_
      cases hu
      rcases hs with hs | hs | hs | hs
      · exact Or.inl (Or.inl hs)
      · exact Or.inl (Or.inr (Or.inl hs))
      · exact Or.inr (Option.some.inj hs).symm
      · exact Or.inl (Or.inr (Or.inr (Or.inr hs)))
  | args ws => exact argsAction_stores
  | env v => exact envAction_stores v

theorem optsAction_stores {b : List Opt} : (optsAction b).Stores (b.flatMap Opt.values) := by
  induction b using List.reverseRecOn with
  | nil => exact .skip
  | append_singleton b x ih =>
      rw [optsAction_append, List.flatMap_append, List.flatMap_singleton]
      exact ih.seq Opt.action_stores

/-- The action at the closing brace leaves what the task holds in the task. -/
theorem taskAction_stores {st st' : ParseState} {task' : Task} {l : List Task} {s : Str}
    (h : taskAction st = some st') (hl : st'.tasksList = task' :: l) (hs : task'.Holds s) :
    (st.task.getD taskInit).Holds s := by
  obtain ⟨task, a₁, a₂, args, envp, htask, hshift, hwrite, hpush, hp, rfl⟩ := taskAction_iff.mp h
  have henvp : envp.Holds s → task.envp.Holds s := by
    intro hs
    split at hp
    · rcases hs.push hp with hs | hs
      · exact hs.checkTaskMember
      · cases hs
    · cases hp
      exact hs
  cases hl
  rw [htask, Option.getD_some]
  rcases hs with hs | hs | hs | hs | hs
  · exact Or.inl hs
  · exact Or.inr (Or.inl hs)
  · exact Or.inr (Or.inr (Or.inl hs))
  · rcases hs.push hpush with hs | hs
    · rcases StrArray.Holds.write hwrite hs with hs | hs
      · exact Or.inr (Or.inr (Or.inr (Or.inl (hs.shift hshift).checkTaskMember)))
      · -- the path in front
        cases hp : task.path with
        | none =>
            rw [hp] at hs
            cases hs
        | some p =>
            rw [hp] at hs
            cases hs
            exact Or.inr (Or.inl hp)
    · cases hs
  · exact Or.inr (Or.inr (Or.inr (Or.inr (henvp hs))))

/-! ## The parse of a configuration -/

/-- The task is what the options of the block say. -/
structure Task.Means (task : Task) (b : List Opt) : Prop where
  name : task.name = (b.filterMap Opt.name?).getLast?
  path : task.path = (b.filterMap Opt.path?).getLast?
  dir : task.dir = (b.filterMap Opt.dir?).getLast?
  args : task.args.Contains
    (Slot.ofStr task.path :: (b.flatMap Opt.words).map .str ++ [.null])
  args_len : task.args.len = (b.flatMap Opt.words).length + 2
  no_env : b.flatMap Opt.entries = [] → task.envp.slots = none
  env : b.flatMap Opt.entries ≠ [] →
    task.envp.Contains ((b.flatMap Opt.entries).map .str ++ [.null])
  /-- Nothing else is in the task. -/
  own : ∀ s, task.Holds s → ∃ x ∈ b, s ∈ x.values

/-- A block that creates its task, up to its closing brace. -/
theorem block_means {b : List Opt} {l : List Task} (h : ∃ x ∈ b, x.creates = true) :
    ∃ task, (optsAction b).seq taskAction ⟨l, none⟩ = some ⟨task :: l, none⟩ ∧
      task.Means b := by
  obtain ⟨task, hrun, hy⟩ := block_spec (l := l) optsAction_adds (optsAction_creates h ⟨l, none⟩)
  have hargs : task.args.Contains
      (Slot.ofStr task.path :: (b.flatMap Opt.words).map .str ++ [.null]) := by
    rw [hy.path, ← blockOptions_args]
    exact hy.args
  refine ⟨task, hrun, hy.name.trans blockOptions_name, hy.path.trans blockOptions_path,
    hy.dir.trans blockOptions_dir, hargs, ?_, ?_, ?_, ?_⟩
  · obtain ⟨_, -, hlen, -⟩ := hargs
    simpa using hlen
  · rw [← blockOptions_env]
    exact hy.no_env
  · rw [← blockOptions_env]
    exact hy.env
  · intro s hs
    obtain ⟨st, hopts, htask⟩ := Option.bind_eq_some_iff.mp hrun
    have hin := taskAction_stores htask rfl hs
    rcases optsAction_stores _ _ hopts s hin with hinit | hval
    · exact absurd hinit not_holds_init
    · exact List.mem_flatMap.mp hval

theorem blocks_mean {bs : List (List Opt)} {l : List Task}
    (h : ∀ b ∈ bs, ∃ x ∈ b, x.creates = true) :
    ∃ tasks, blocksAction bs ⟨l, none⟩ = some ⟨tasks ++ l, none⟩ ∧
      List.Forall₂ Task.Means tasks bs.reverse := by
  induction bs using List.reverseRecOn with
  | nil => exact ⟨[], rfl, .nil⟩
  | append_singleton bs b ih =>
      obtain ⟨tasks, hrun, hmean⟩ := ih fun b hb => h b (List.mem_append_left _ hb)
      obtain ⟨task, hblock, hb⟩ := block_means (l := tasks ++ l) (h b (by simp))
      refine ⟨task :: tasks, ?_, ?_⟩
      · rw [blocksAction_append, Action.seq, hrun]
        exact hblock
      · rw [List.reverse_concat]
        exact .cons hb hmean

theorem Opt.creates_iff {x : Opt} : x.creates = true ↔ x ≠ .args [] := by
  cases x with
  | args ws => cases ws <;> simp [Opt.creates]
  | _ => simp [Opt.creates]

/-- A block that does not create its task has no other options. -/
theorem all_skip {b : List Opt} (h : ¬∃ x ∈ b, x.creates = true) : ∀ x ∈ b, x.creates = false := by
  simpa using h

/-- The meaning of a configuration: the parse is accepted, and leaves a task for
each block in front of the list, the last block first. -/
theorem accepted_meaning {ts : List Token} {bs : List (List Opt)} (h : Derives ts bs)
    (hc : ∀ b ∈ bs, ∃ x ∈ b, x ≠ .args []) (l : List Task) :
    ∃ tasks, yyparse .tasks ⟨l, none⟩ ts = .accept ⟨tasks ++ l, none⟩ ∧
      List.Forall₂ Task.Means tasks bs.reverse := by
  simp only [← Opt.creates_iff] at hc
  obtain ⟨tasks, hrun, hmean⟩ := blocks_mean (l := l) hc
  exact ⟨tasks, parser_iff.mpr ⟨_, tasks_iff.mpr ⟨bs, h, rfl⟩, hrun⟩, hmean⟩

/-- `task { name s; args "1" -v; }`. -/
theorem accepted_meaning_quoted :
    ∃ tasks,
      yyparse .tasks ⟨[], none⟩
          [.tokenTask, .openBrace, .tokenName, .alphaWord [115], .semicolon, .tokenArgs, .quote,
            .number [49], .quote, .argKey [45, 118], .semicolon, .endBrace] =
        .accept ⟨tasks ++ [], none⟩ ∧
      List.Forall₂ Task.Means tasks [[.name [115], .args [[49], [45, 118]]]] :=
  have hname : Writs _ _ := .snoc .nil (.name (.alphaWord [115]))
  have hwords : Words _ _ :=
    .snoc (.snoc .nil (.quoted (t := .number [49]) rfl)) (.plain (t := .argKey [45, 118]) rfl)
  accepted_meaning (.snoc .nil (.snoc hname (.args hwords))) (by decide) []

/-! ## Blocks without a task -/

/-- The parser is at `pos` with `st` after the tokens. -/
def ReachesPos (l : List Task) (ts : List Token) (pos : Pos) (st : ParseState) : Prop :=
  ∃ f, Pos.tasks.run ts = some (pos, f) ∧ f ⟨l, none⟩ = some st

/-- What is left to parse decides. -/
theorem yyparse_append {pos pos' : Pos} {st st' : ParseState} {us vs : List Token} {f : Action}
    (hrun : pos.run us = some (pos', f)) (hf : f st = some st') :
    yyparse pos st (us ++ vs) = yyparse pos' st' vs := by
  induction us generalizing pos st f with
  | nil =>
      cases hrun
      cases hf
      rfl
  | cons t us ih =>
      obtain ⟨⟨p, f₁⟩, hn, hbind⟩ := Option.bind_eq_some_iff.mp hrun
      obtain ⟨⟨q, f₂⟩, hrest, heq⟩ := Option.bind_eq_some_iff.mp hbind
      cases heq
      obtain ⟨st₁, h₁, h₂⟩ := Option.bind_eq_some_iff.mp hf
      rw [List.cons_append, yyparse, hn]
      simp only [h₁]
      exact ih hrest h₂

/-- The current task at every closing brace of the parse. -/
def TaskAtBrace (l : List Task) (ts : List Token) : Prop :=
  ∀ us vs st, ts = us ++ .endBrace :: vs → ReachesPos l us .taskOpts st → st.task ≠ none

/-- The first block that does not create its task, and the parse up to its
brace. -/
theorem reaches_empty_block {ts : List Token} {bs : List (List Opt)} (h : Derives ts bs)
    (hb : ∃ b ∈ bs, ∀ x ∈ b, x.creates = false) (l : List Task) :
    ∃ us vs st, ts = us ++ .endBrace :: vs ∧ ReachesPos l us .taskOpts st ∧ st.task = none := by
  induction h with
  | nil =>
      obtain ⟨b, hb, -⟩ := hb
      cases hb
  | @snoc ts us bs b hts hus ih =>
      by_cases hbs : ∃ b ∈ bs, ∀ x ∈ b, x.creates = false
      · -- it comes before the last block
        obtain ⟨us', vs, st, rfl, hreach, hnone⟩ := ih hbs
        exact ⟨us', vs ++ (.tokenTask :: .openBrace :: us ++ [.endBrace]), st, by simp, hreach,
          hnone⟩
      · obtain ⟨b', hb', hskip⟩ := hb
        have hlast : b' = b := by
          rcases List.mem_append.mp hb' with hmem | hmem
          · exact absurd ⟨b', hmem, hskip⟩ hbs
          · exact List.mem_singleton.mp hmem
        subst hlast
        have hc : ∀ b ∈ bs, ∃ x ∈ b, x.creates = true := by
          intro b hb
          by_contra hno
          exact hbs ⟨b, hb, all_skip hno⟩
        obtain ⟨tasks, hrun, -⟩ := blocks_mean (l := l) hc
        have hblocks := (tasks_iff.mpr ⟨bs, hts, rfl⟩).run
        have hopen : Pos.tasks.run [.tokenTask, .openBrace] = some (.taskOpts, .skip) := rfl
        have hopts := (taskOpts_iff.mpr ⟨b', hus, rfl⟩).run
        refine ⟨ts ++ (.tokenTask :: .openBrace :: us), [], ⟨tasks ++ l, none⟩, by simp,
          ⟨_, Pos.run_trans hblocks (Pos.run_trans hopen hopts), ?_⟩, rfl⟩
        rw [optsAction_skip hskip, Action.seq_skip, Action.seq_skip]
        exact hrun

/-- Such a parse faults. -/
theorem yyparse_empty_block {ts : List Token} {bs : List (List Opt)} (h : Derives ts bs)
    (hb : ∃ b ∈ bs, ∀ x ∈ b, x.creates = false) (l : List Task) :
    yyparse .tasks ⟨l, none⟩ ts = .fault := by
  obtain ⟨us, vs, st, rfl, ⟨f, hrun, hf⟩, hnone⟩ := reaches_empty_block h hb l
  rw [yyparse_append hrun hf]
  simp [yyparse, Pos.next, taskAction, hnone]

/-- The current task is there at every closing brace if and only if every block
has an option that creates it: one other than an `args` without words. -/
theorem task_at_brace_iff {ts : List Token} {bs : List (List Opt)} (h : Derives ts bs)
    (l : List Task) : TaskAtBrace l ts ↔ ∀ b ∈ bs, ∃ x ∈ b, x ≠ .args [] := by
  simp only [← Opt.creates_iff]
  constructor
  · intro hsafe b hb
    by_contra hno
    obtain ⟨us, vs, st, hts, hreach, hnone⟩ := reaches_empty_block h ⟨b, hb, all_skip hno⟩ l
    exact hsafe us vs st hts hreach hnone
  · rintro hc us vs st rfl ⟨f, hrun, hf⟩ hnone
    -- the parse would fault at the brace, but it is accepted
    have hfault : yyparse .tasks ⟨l, none⟩ (us ++ .endBrace :: vs) = .fault := by
      rw [yyparse_append hrun hf]
      simp [yyparse, Pos.next, taskAction, hnone]
    obtain ⟨tasks, hblocks, -⟩ := blocks_mean (l := l) hc
    have haccept := parser_iff.mpr ⟨_, tasks_iff.mpr ⟨bs, h, rfl⟩, hblocks⟩
    rw [hfault] at haccept
    cases haccept

/-- `task { name s; }`. -/
theorem task_at_brace_iff_named :
    TaskAtBrace [] [.tokenTask, .openBrace, .tokenName, .alphaWord [115], .semicolon, .endBrace] ↔
      ∀ b ∈ [[Opt.name [115]]], ∃ x ∈ b, x ≠ .args [] :=
  have hname : Writs _ _ := .snoc .nil (.name (.alphaWord [115]))
  task_at_brace_iff (.snoc .nil hname) []

/-- `task { }`. -/
theorem not_taskAtBrace : ¬∀ ts bs, Derives ts bs → ∀ l, TaskAtBrace l ts := by
  intro h
  have hempty : Derives [.tokenTask, .openBrace, .endBrace] [[]] := .snoc .nil .nil
  exact h _ _ hempty [] [.tokenTask, .openBrace] [] ⟨[], none⟩ rfl ⟨.skip, rfl, rfl⟩ rfl

/-! ## Configurations -/

/-- The tokens are a configuration: they derive from `tasks`, and every block
creates its task. -/
def IsConf (ts : List Token) : Prop :=
  ∃ bs, Derives ts bs ∧ ∀ b ∈ bs, ∃ x ∈ b, x.creates = true

/-- What a configuration leaves behind is the meaning of its blocks, each of which
creates its task. -/
theorem accept_means {ts : List Token} {bs : List (List Opt)} {l : List Task} {st : ParseState}
    (h : Derives ts bs) (hacc : yyparse .tasks ⟨l, none⟩ ts = .accept st) :
    (∀ b ∈ bs, ∃ x ∈ b, x.creates = true) ∧
      ∃ tasks, st = ⟨tasks ++ l, none⟩ ∧ List.Forall₂ Task.Means tasks bs.reverse := by
  have hc : ∀ b ∈ bs, ∃ x ∈ b, x.creates = true := by
    intro b hb
    by_contra hno
    rw [yyparse_empty_block h ⟨b, hb, all_skip hno⟩ l] at hacc
    cases hacc
  obtain ⟨tasks, hrun, hmean⟩ := blocks_mean (l := l) hc
  have haccept := parser_iff.mpr ⟨_, tasks_iff.mpr ⟨bs, h, rfl⟩, hrun⟩
  rw [hacc] at haccept
  cases haccept
  exact ⟨hc, tasks, rfl, hmean⟩

/-- What is accepted is a configuration, and what is left behind is its meaning. -/
theorem accept_conf {ts : List Token} {l : List Task} {st : ParseState}
    (h : yyparse .tasks ⟨l, none⟩ ts = .accept st) :
    ∃ bs tasks, Derives ts bs ∧ (∀ b ∈ bs, ∃ x ∈ b, x.creates = true) ∧
      st = ⟨tasks ++ l, none⟩ ∧ List.Forall₂ Task.Means tasks bs.reverse := by
  obtain ⟨f, hf, -⟩ := parser_iff.mp h
  obtain ⟨bs, hbs, rfl⟩ := tasks_iff.mp hf
  obtain ⟨hc, tasks, hst, hmean⟩ := accept_means hbs h
  exact ⟨bs, tasks, hbs, hc, hst, hmean⟩

theorem accept_iff {ts : List Token} {l : List Task} :
    (∃ st, yyparse .tasks ⟨l, none⟩ ts = .accept st) ↔ IsConf ts := by
  constructor
  · rintro ⟨st, h⟩
    obtain ⟨bs, -, hbs, hc, -⟩ := accept_conf h
    exact ⟨bs, hbs, hc⟩
  · rintro ⟨bs, hbs, hc⟩
    obtain ⟨tasks, hrun, -⟩ := blocks_mean (l := l) hc
    exact ⟨_, parser_iff.mpr ⟨_, tasks_iff.mpr ⟨bs, hbs, rfl⟩, hrun⟩⟩

end Bitzer
