import Bitzer.Conf.Close
import Bitzer.Conf.Load
import Bitzer.Lists.Loops

/-!
# The tasks at their addresses

The parse on memory: the structs that `task_create` allocates, the static
pointer `task`, and the list `conf->tasks_list` as `list_add` links it. It does
what the parse on values does (`ConfMem.Refines`), so that the list that the
supervisor walks, and that `context_close` walks, is the one on values.
-/

namespace Bitzer

open Lib

/-- The list heads: the one in `conf_t` and the one in each `task_t`. -/
inductive ConfNode where
  | tasksList
  | task (n : Nat)
  deriving DecidableEq

structure ConfMem where
  lists : ListMem ConfNode
  /-- The structs by their addresses. -/
  tasks : Nat → Option Task
  /-- What `malloc` returns next. -/
  fresh : Nat
  /-- The static `task`. -/
  task : Option Nat

/-! ## The C code of the productions -/

inductive Code where
  | skip
  | name (s : Str)
  | path (s : Str)
  | arg (s : Str)
  | env (s : Str)
  | dir (s : Str)
  | task

/-- The code that a step of the parser runs. -/
def Pos.code : Pos → Token → Code
  | .taskOpts, .endBrace => .task
  | .nameEnd s, .semicolon => .name s
  | .pathEnd s, .semicolon => .path s
  | .argsList, t => (t.innerArg.map Code.arg).getD .skip
  | .argEndQuote s, .quote => .arg s
  | .envEnd s, .semicolon => .env s
  | .dirEnd s, .semicolon => .dir s
  | _, _ => .skip

/-- On values. -/
def Code.action : Code → Action
  | .skip => .skip
  | .name s => nameAction s
  | .path s => pathAction s
  | .arg s => argAction s
  | .env s => envAction s
  | .dir s => dirAction s
  | .task => taskAction

/-- What the code changes in `*task`. -/
def Code.update : Code → Task → Option Task
  | .skip, cur => some cur
  | .name s, cur => some { cur with name := some s }
  | .path s, cur => some { cur with path := some s }
  | .arg s, cur => do
      let args ← (cur.args.checkTaskMember 1 confDefaultLen).push (.str s)
      return { cur with args := args }
  | .env s, cur => do
      let envp ← (cur.envp.checkTaskMember 1 confDefaultLen).push (.str s)
      return { cur with envp := envp }
  | .dir s, cur => some { cur with dir := some s }
  | .task, cur => do
      let args := cur.args.checkTaskMember 2 2
      let args ← args.shift args.len
      let args ← args.write 0 (Slot.ofStr cur.path)
      let args ← { args with len := args.len + 1 }.push .null
      let envp ← if cur.envp.slots.isSome then (cur.envp.checkTaskMember 1 1).push .null
        else some cur.envp
      return { cur with args := args, envp := envp }

namespace ConfMem

/-- `check_task`, with `task_create`: the list head in the struct is not set. -/
def checkTask (m : ConfMem) : ConfMem :=
  match m.task with
  | some _ => m
  | none =>
      { lists := Function.update m.lists (.task m.fresh) (some {})
        tasks := Function.update m.tasks m.fresh (some taskInit)
        fresh := m.fresh + 1
        task := some m.fresh }

/-- An update of `*task`. -/
def onTask (f : Task → Option Task) (m : ConfMem) : Option ConfMem := do
  let n ← m.task
  let task ← m.tasks n
  let task ← f task
  return { m with tasks := Function.update m.tasks n (some task) }

/-- `list_add(&task->list, &conf->tasks_list); task = NULL;`. -/
def linkTask (m : ConfMem) : Option ConfMem := do
  let n ← m.task
  let (_, lists) ← (listAdd (.task n) .tasksList).run m.lists
  return { m with lists := lists, task := none }

/-- `conf_create`, in a process whose static `task` is `NULL`. -/
def create : Option ConfMem := do
  let (_, lists) ← (initListHead .tasksList).run
    (Function.update (fun _ => none) .tasksList (some {}))
  return { lists := lists, tasks := fun _ => none, fresh := 0, task := none }

end ConfMem

/-- On memory. -/
def Code.run : Code → ConfMem → Option ConfMem
  | .skip, m => some m
  | .task, m => do (← m.onTask Code.task.update).linkTask
  | c, m => m.checkTask.onTask c.update

/-- `yyparse` on memory, as `Outcome.loaded` tells its end. -/
def yyparseMem : Pos → ConfMem → List Token → Option (Bool × ConfMem)
  | pos, m, [] => some (decide (pos = .tasks), m)
  | pos, m, t :: ts =>
      match pos.next t with
      | none => some (false, m)
      | some (pos', _) => do
          let m ← (pos.code t).run m
          yyparseMem pos' m ts

/-! ## `context_close` on memory -/

/-- `task_close(list_entry(pos, task_t, list))`, with what was freed so far. -/
def closeEntry : ConfNode → Prog (ConfMem × List (List Str)) Unit
  | .tasksList => fun _ => none
  | .task n => fun s => do
      let cur ← s.1.tasks n
      let freed ← taskClose cur
      return ((), s.1, s.2 ++ [freed])

/-- The loop of `context_close`. -/
def contextCloseMem (fuel : Nat) : Prog (ConfMem × List (List Str)) Unit :=
  listForEach (fun s => s.1.lists) .tasksList closeEntry fuel

/-! ## The structs and the values -/

/-- The structs and the list hold what the parse state says; `xs` are the addresses
of the tasks on the list. -/
structure ConfMem.Refines (m : ConfMem) (st : ParseState) (xs : List Nat) : Prop where
  lists : m.lists.Holds (Function.update (fun _ => none) .tasksList (some (xs.map .task)))
  values : xs.map m.tasks = st.tasksList.map some
  current : m.task.bind m.tasks = st.task
  alloc : ∀ n, m.task = some n →
    n ∉ xs ∧ n < m.fresh ∧ (m.tasks n).isSome ∧ (m.lists (.task n)).isSome
  bound : ∀ n ∈ xs, n < m.fresh

section
variable {m m' : ConfMem} {st st' : ParseState} {xs : List Nat} {pos pos' : Pos} {t : Token}
  {f : Action} {c : Code}

theorem next_code (h : pos.next t = some (pos', f)) : f = (pos.code t).action := by
  cases pos <;> cases t <;> first | (cases h; rfl) | cases h

/-- Neither side of a step goes on, or both do. -/
theorem rel_bind {α β α' β' : Type} {r : α → β → Prop} {r' : α' → β' → Prop} {x : Option α}
    {y : Option β} {k : α → Option α'} {l : β → Option β'} (h : Option.Rel r x y)
    (hk : ∀ a b, r a b → Option.Rel r' (k a) (l b)) : Option.Rel r' (x.bind k) (y.bind l) := by
  cases h with
  | some hab => exact hk _ _ hab
  | none => exact .none

theorem refines_checkTask (h : m.Refines st xs) :
    m.checkTask.Refines (checkTask st) xs ∧ m.checkTask.task.isSome := by
  cases hn : m.task with
  | some n =>
      obtain ⟨-, -, hsome, -⟩ := h.alloc n hn
      obtain ⟨task, htask⟩ := Option.isSome_iff_exists.mp hsome
      have hst : st.task = some task := by rw [← h.current, hn, ← htask]; rfl
      have hm : m.checkTask = m := by simp only [ConfMem.checkTask, hn]
      have hc : checkTask st = st := by
        obtain ⟨l, cur⟩ := st
        cases hst
        rfl
      rw [hm, hc, hn]
      exact ⟨h, rfl⟩
  | none =>
      have hst : st.task = none := by rw [← h.current, hn]; rfl
      have hfresh : m.fresh ∉ xs := fun hmem => Nat.lt_irrefl _ (h.bound _ hmem)
      simp only [ConfMem.checkTask, hn]
      refine ⟨⟨?_, ?_, ?_, ?_, fun n hmem => Nat.lt_succ_of_lt (h.bound n hmem)⟩, rfl⟩
      · -- the new struct is on no list
        refine Rings.congr h.lists fun head ys hL a ha => ?_
        have hne : a ≠ .task m.fresh := by
          rintro rfl
          by_cases hh : head = .tasksList
          · subst hh
            rw [Function.update_self] at hL
            cases hL
            simp [hfresh] at ha
          · rw [Function.update_of_ne hh] at hL
            cases hL
        simp [ListMem.links, Function.update_of_ne hne]
      · refine (List.map_congr_left fun n hmem => ?_).trans h.values
        have hne : n ≠ m.fresh := fun heq => hfresh (heq ▸ hmem)
        exact Function.update_of_ne hne ..
      · simp [checkTask, hst]
      · rintro n hn
        cases hn
        exact ⟨hfresh, Nat.lt_succ_self _, by simp, by simp⟩

theorem refines_onTask {g : Task → Option Task} (h : m.Refines st xs) :
    Option.Rel (fun m' st' => m'.Refines st' xs ∧ m'.task = m.task) (m.onTask g) (onTask g st) := by
  have hcur := h.current
  unfold ConfMem.onTask onTask
  cases hn : m.task with
  | none =>
      rw [hn, Option.bind_none] at hcur
      rw [← hcur]
      exact .none
  | some n =>
      obtain ⟨hnot, hlt, -, hlist⟩ := h.alloc n hn
      rw [hn, Option.bind_some] at hcur
      simp only [Option.bind_eq_bind, Option.bind_some, ← hcur]
      cases ht : m.tasks n with
      | none => exact .none
      | some task =>
          cases hg : g task with
          | none =>
              simp only [Option.bind_some, hg]
              exact .none
          | some task' =>
              simp only [Option.bind_some, hg, Option.pure_def]
              refine .some ⟨⟨h.lists, ?_, by simp, ?_, h.bound⟩, rfl⟩
              · refine (List.map_congr_left fun k hk => ?_).trans h.values
                have hne : k ≠ n := fun heq => hnot (heq ▸ hk)
                exact Function.update_of_ne hne ..
              · rintro k hk
                cases hk
                exact ⟨hnot, hlt, by simp, hlist⟩

/-- `list_add` puts the struct in front. -/
theorem refines_linkTask {task : Task} {l : List Task} {n : Nat}
    (h : m.Refines ⟨l, some task⟩ xs) (hn : m.task = some n) :
    ∃ m', m.linkTask = some m' ∧ m'.Refines ⟨task :: l, none⟩ (n :: xs) := by
  obtain ⟨hnot, hlt, -, hlist⟩ := h.alloc n hn
  have hfree : Unlisted (Function.update (fun _ => none) .tasksList (some (xs.map ConfNode.task)))
      (.task n) := by
    intro head ys hL
    by_cases hh : head = .tasksList
    · subst hh
      rw [Function.update_self] at hL
      cases hL
      simp [hnot]
    · rw [Function.update_of_ne hh] at hL
      cases hL
  obtain ⟨_, lists, hrun, hl⟩ := ListOp.run_spec (.add (.task n) .tasksList) h.lists
    ⟨hlist, hfree, by simp⟩
  have hrun : (listAdd (.task n) .tasksList).run m.lists = some ((), lists) := hrun
  refine ⟨{ m with lists := lists, task := none }, ?_, ?_, ?_, rfl, nofun, ?_⟩
  · simp [ConfMem.linkTask, hn, hrun]
  · have := hl.holds
    simpa [ListOp.apply] using this
  · have hcur := h.current
    rw [hn, Option.bind_some] at hcur
    rw [List.map_cons, List.map_cons, ← h.values, hcur]
  · exact List.forall_mem_cons.mpr ⟨hlt, h.bound⟩

/-- The brace action in its two parts. -/
theorem taskAction_link (st : ParseState) : taskAction st =
    (onTask Code.task.update st).bind fun st =>
      st.task.map fun task => ⟨task :: st.tasksList, none⟩ := by
  unfold taskAction onTask Code.update
  cases st.task with
  | none => rfl
  | some task =>
      by_cases he : task.envp.slots.isSome = true
      · simp [he, Option.bind_assoc]
      · simp [he, Option.bind_assoc]

/-- A production does on memory what it does on values. -/
theorem refines_run (c : Code) (h : m.Refines st xs) :
    Option.Rel (fun m' st' => ∃ xs, m'.Refines st' xs) (c.run m) (c.action st) := by
  have hopt : ∀ g : Task → Option Task,
      Option.Rel (fun m' st' => ∃ xs, m'.Refines st' xs) (m.checkTask.onTask g)
        (onTask g (checkTask st)) := by
    intro g
    have hr := refines_onTask (g := g) (refines_checkTask h).1
    generalize m.checkTask.onTask g = x, onTask g (checkTask st) = y at hr
    cases hr with
    | some hab => exact .some ⟨xs, hab.1⟩
    | none => exact .none
  cases c with
  | skip => exact .some ⟨xs, h⟩
  | name s => exact hopt _
  | path s => exact hopt _
  | arg s => exact hopt _
  | env s => exact hopt _
  | dir s => exact hopt _
  | task =>
      show Option.Rel _ ((m.onTask Code.task.update).bind ConfMem.linkTask) (taskAction st)
      rw [taskAction_link]
      refine rel_bind (refines_onTask h) fun m' st' ⟨h', _⟩ => ?_
      obtain ⟨l, cur⟩ := st'
      have hcur := h'.current
      cases hn : m'.task with
      | none =>
          rw [hn, Option.bind_none] at hcur
          cases hcur
          rw [ConfMem.linkTask, hn]
          exact .none
      | some n =>
          obtain ⟨task, htask⟩ := Option.isSome_iff_exists.mp (h'.alloc n hn).2.2.1
          rw [hn, Option.bind_some, htask] at hcur
          cases hcur
          obtain ⟨m'', hlink, h''⟩ := refines_linkTask h' hn
          rw [hlink]
          exact .some ⟨_, h''⟩

/-- The parse does on memory what it does on values. -/
theorem refines_yyparse (pos : Pos) (ts : List Token) (h : m.Refines st xs) :
    Option.Rel (fun r r' => r.1 = r'.1 ∧ ∃ xs, r.2.Refines r'.2 xs) (yyparseMem pos m ts)
      (yyparse pos st ts).loaded := by
  induction ts generalizing pos m st xs with
  | nil =>
      rw [yyparseMem, yyparse]
      by_cases hp : pos = .tasks
      · rw [if_pos hp, decide_eq_true hp]
        exact .some ⟨rfl, xs, h⟩
      · rw [if_neg hp, decide_eq_false hp]
        exact .some ⟨rfl, xs, h⟩
  | cons t ts ih =>
      rw [yyparseMem, yyparse]
      cases hn : pos.next t with
      | none => exact .some ⟨rfl, xs, h⟩
      | some step =>
          obtain ⟨pos', f⟩ := step
          rw [next_code hn]
          have hr := refines_run (pos.code t) h
          simp only [Option.bind_eq_bind]
          generalize (pos.code t).run m = x, (pos.code t).action st = y at hr ⊢
          cases hr with
          | some hab =>
              obtain ⟨xs', h'⟩ := hab
              exact ih _ h'
          | none => exact .none

theorem create_refines : ∃ m, ConfMem.create = some m ∧ m.Refines freshState [] := by
  obtain ⟨_, lists, hrun, hl⟩ := ListOp.run_spec (.init ConfNode.tasksList)
    (m := Function.update (fun _ => none) .tasksList (some {})) Rings.none ⟨by simp, nofun⟩
  have hrun : (initListHead .tasksList).run _ = some ((), lists) := hrun
  exact ⟨⟨lists, fun _ => none, 0, none⟩, by simp [ConfMem.create, hrun], hl.holds, rfl, rfl,
    nofun, nofun⟩

/-- One more task is closed. -/
theorem contextClose_next {A B : List Task} {task : Task} {freed done : List (List Str)}
    (h : contextClose (A ++ task :: B) = some freed) (hA : contextClose A = some done) :
    ∃ f, taskClose task = some f ∧ contextClose (A ++ [task]) = some (done ++ [f]) := by
  unfold contextClose at h hA ⊢
  rw [List.mapM_append, hA, List.mapM_cons] at h
  rw [List.mapM_append, hA, List.mapM_cons]
  cases hf : taskClose task with
  | none => simp [hf] at h
  | some f => exact ⟨f, rfl, by simp⟩

/-! ## What the supervisor finds -/

/-- No option touches what `task_init` has set for the supervisor. -/
theorem update_fresh {cur new : Task} (h : c.update cur = some new) (hf : cur.Fresh) :
    new.Fresh := by
  cases c with
  | skip | name | path | dir =>
      cases h
      exact hf
  | arg s | env s =>
      obtain ⟨a, -, h⟩ := Option.bind_eq_some_iff.mp h
      cases h
      exact hf
  | task =>
      obtain ⟨_, -, h⟩ := Option.bind_eq_some_iff.mp h
      obtain ⟨_, -, h⟩ := Option.bind_eq_some_iff.mp h
      obtain ⟨_, -, h⟩ := Option.bind_eq_some_iff.mp h
      split at h
      · obtain ⟨_, -, h⟩ := Option.bind_eq_some_iff.mp h
        cases h
        exact hf
      · cases h
        exact hf

/-- All tasks of the parse are as `task_init` leaves them for the supervisor. -/
structure ParseState.Fresh (st : ParseState) : Prop where
  tasksList : ∀ task ∈ st.tasksList, task.Fresh
  task : ∀ task, st.task = some task → task.Fresh

theorem onTask_fresh (hst : st.Fresh) (h : onTask c.update st = some st') : st'.Fresh := by
  obtain ⟨cur, hcur, h⟩ := Option.bind_eq_some_iff.mp h
  obtain ⟨new, hnew, h⟩ := Option.bind_eq_some_iff.mp h
  cases h
  refine ⟨hst.tasksList, fun task ht => ?_⟩
  cases ht
  exact update_fresh hnew (hst.task cur hcur)

theorem action_fresh (hst : st.Fresh) (h : c.action st = some st') : st'.Fresh := by
  have hcheck : (checkTask st).Fresh := by
    refine ⟨hst.tasksList, fun task ht => ?_⟩
    cases ht
    cases hcur : st.task with
    | none => exact ⟨rfl, rfl, rfl⟩
    | some cur => exact hst.task cur hcur
  cases c with
  | skip =>
      cases h
      exact hst
  | name s => exact onTask_fresh (c := .name s) hcheck h
  | path s => exact onTask_fresh (c := .path s) hcheck h
  | arg s => exact onTask_fresh (c := .arg s) hcheck h
  | env s => exact onTask_fresh (c := .env s) hcheck h
  | dir s => exact onTask_fresh (c := .dir s) hcheck h
  | task =>
      have h : taskAction st = some st' := h
      rw [taskAction_link] at h
      obtain ⟨st₁, hrun, h⟩ := Option.bind_eq_some_iff.mp h
      obtain ⟨task, htask, rfl⟩ := Option.map_eq_some_iff.mp h
      have h₁ := onTask_fresh hst hrun
      exact ⟨List.forall_mem_cons.mpr ⟨h₁.task task htask, h₁.tasksList⟩, nofun⟩

theorem yyparse_fresh {ts : List Token} (hst : st.Fresh)
    (h : yyparse pos st ts = .accept st') : st'.Fresh := by
  induction ts generalizing pos st with
  | nil =>
      rw [yyparse] at h
      split at h
      · cases h
        exact hst
      · cases h
  | cons t ts ih =>
      obtain ⟨pos', f, st₁, hn, hf, h⟩ := yyparse_cons_accept.mp h
      rw [next_code hn] at hf
      exact ih (action_fresh hst hf) h

/-! ## The loop of `context_close` -/

/-- The loop of `context_close` closes the structs in the order of the list. -/
theorem contextCloseMem_spec {freed : List (List Str)} {fuel : Nat} (h : m.Refines st xs)
    (hclose : contextClose st.tasksList = some freed) (hf : xs.length < fuel) :
    (contextCloseMem fuel).run (m, []) = some ((), m, freed) := by
  have hring := h.lists.ring .tasksList (xs.map .task) (Function.update_self ..)
  have hloop : wp (contextCloseMem fuel) (fun _ s => s = (m, freed)) (m, []) := by
    have hspec : wp (contextCloseMem fuel) _ (m, []) := listForEach_spec
      (I := fun vs s => s.1 = m ∧ contextClose (st.tasksList.take vs.length) = some s.2)
      hring (by simp) (by simpa using hf) ⟨rfl, rfl⟩ ?_
    · refine wp_mono hspec fun _ s hs => ?_
      obtain ⟨hm, hs⟩ := hs
      have hlen := congrArg List.length h.values
      rw [List.length_map, List.length_map] at hlen
      rw [List.length_map, List.take_of_length_le (Nat.le_of_eq hlen.symm), hclose] at hs
      cases hs
      exact Prod.ext hm rfl
    · rintro vs x rest ⟨m', done⟩ hx ⟨hm, hdone⟩
      obtain rfl : m = m' := hm.symm
      -- the entry at hand, on memory and on values
      obtain ⟨as, bs, rfl, rfl, hbs⟩ := List.map_eq_append_iff.mp hx
      obtain ⟨n, bs, rfl, rfl, rfl⟩ := List.map_eq_cons_iff.mp hbs
      have hvalues := h.values.symm
      rw [List.map_append] at hvalues
      obtain ⟨A, B, hl, hA, hB⟩ := List.map_eq_append_iff.mp hvalues
      obtain ⟨task, B, rfl, hn, -⟩ := List.map_eq_cons_iff.mp hB
      have hlen := congrArg List.length hA
      rw [List.length_map, List.length_map] at hlen
      have htake : st.tasksList.take as.length = A := by rw [hl, ← hlen, List.take_left]
      simp only [List.length_map, htake] at hdone
      rw [hl] at hclose
      obtain ⟨f, hf, hnext⟩ := contextClose_next hclose hdone
      have hrun : (closeEntry (.task n)).run (m, done) = some ((), m, done ++ [f]) := by
        simp [closeEntry, StateT.run, ← hn, hf]
      rw [wp_of_run hrun]
      refine ⟨⟨rfl, ?_⟩, ?_⟩
      · have htake' : st.tasksList.take (as.length + 1) = A ++ [task] := by
          rw [hl, ← hlen, List.take_append]
          simp
        simpa [htake'] using hnext
      · rw [List.map_append, List.map_cons] at hring
        obtain ⟨k, hk, hnext⟩ := hring.next_mem (as.map ConfNode.task)
        exact hnext.trans hk.symm
  obtain ⟨_, _, hrun, rfl⟩ := hloop
  exact hrun

/-- **The configuration in memory.** The parse that allocates the structs, writes
through `task` and links with `list_add` ends as the parse on values does, by a
fault too. `conf->tasks_list` then shows structs at distinct addresses, which
hold the tasks of the parse on values in their order; and if the configuration
is accepted, the loop of `context_close` over the list goes through them all. -/
theorem conf_in_memory (ts : List Token) : ∃ m₀, ConfMem.create = some m₀ ∧
    Option.Rel (fun (r : Bool × ConfMem) (r' : Bool × ParseState) => r.1 = r'.1 ∧
      ∃ xs : List Nat, r.2.lists.Shows .tasksList (xs.map .task) ∧
        xs.map r.2.tasks = r'.2.tasksList.map some ∧
        (r.1 = true → ∃ freed, contextClose r'.2.tasksList = some freed ∧
          ∀ fuel, xs.length < fuel →
            (contextCloseMem fuel).run (r.2, []) = some ((), r.2, freed)))
      (yyparseMem .tasks m₀ ts) (yyparse .tasks freshState ts).loaded := by
  obtain ⟨m₀, hcreate, h₀⟩ := create_refines
  refine ⟨m₀, hcreate, ?_⟩
  have hrel := refines_yyparse .tasks ts h₀
  generalize yyparseMem .tasks m₀ ts = x, hy : (yyparse .tasks freshState ts).loaded = y at hrel
  cases hrel with
  | none => exact .none
  | @some r r' hr =>
      obtain ⟨hok, xs, h⟩ := hr
      refine .some ⟨hok, xs, h.lists.shows (Function.update_self ..), h.values, fun htrue => ?_⟩
      obtain ⟨ok, st⟩ := r'
      have hacc : yyparse .tasks ⟨[], none⟩ ts = .accept st := by
        cases hp : yyparse .tasks ⟨[], none⟩ ts with
        | accept st' =>
            rw [freshState, hp] at hy
            cases hy
            rfl
        | syntaxError st' =>
            rw [freshState, hp] at hy
            cases hy
            exact absurd (hok ▸ htrue) (by simp)
        | fault =>
            rw [freshState, hp] at hy
            cases hy
      obtain ⟨bs, tasks, -, -, rfl, hmean⟩ := accept_conf hacc
      rw [List.append_nil] at h ⊢
      obtain ⟨freed, hclose, -⟩ := contextClose_means hmean
      exact ⟨freed, hclose, fun fuel hf => contextCloseMem_spec h hclose hf⟩

end

end Bitzer
