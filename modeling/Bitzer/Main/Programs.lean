import Bitzer.Conf.Structs
import Bitzer.Context.History
import Bitzer.Main.Child

/-!
# From the configuration file to the programs

The way of a configuration through the whole program: the text is parsed into
structs and a list in memory, the supervisor starts and restarts what the list
shows, and the children of `task_run` execute programs. What a program gets is
what its block says, at every start.
-/

namespace Bitzer

open Lib

/-! ## The configuration in memory -/

/-- The configuration is what a walk of `conf->tasks_list` finds. -/
structure Config.Shown (cfg : Config Nat) (m : ConfMem) : Prop where
  list : m.lists.Shows .tasksList (cfg.tasks.map .task)
  values : ∀ t ∈ cfg.tasks, m.tasks t = some (cfg.task t)

section
variable {m m₀ : ConfMem} {st : ParseState} {xs : List Nat} {ts : List Token}

/-- A list shows one sequence of entries. -/
theorem shows_unique {α : Type} [DecidableEq α] {m : ListMem α} {head : α} {xs ys : List α}
    (h : m.Shows head xs) (h' : m.Shows head ys) : xs = ys := by
  have hx := h.visited (xs.length + ys.length + 1) (by omega)
  have hy := h'.visited (xs.length + ys.length + 1) (by omega)
  rw [hx] at hy
  cases hy
  rfl

theorem shown_iff {cfg : Config Nat} (h : m.Refines st xs) (hs : cfg.Shown m) :
    cfg.tasks = xs ∧ cfg.tasks.map cfg.task = st.tasksList := by
  have hlist := shows_unique hs.list (h.lists.shows (Function.update_self ..))
  have hinj : Function.Injective ConfNode.task := fun _ _ heq => by cases heq; rfl
  have hxs : cfg.tasks = xs := List.map_injective_iff.mpr hinj hlist
  refine ⟨hxs, ?_⟩
  have hvalues := h.values
  rw [← hxs] at hvalues
  have hsome : cfg.tasks.map m.tasks = (cfg.tasks.map cfg.task).map some := by
    rw [List.map_map]
    exact List.map_congr_left hs.values
  exact List.map_injective_iff.mpr (Option.some_injective _) (hsome.symm.trans hvalues)

/-- What an accepted configuration leaves in memory. -/
theorem accepted_refines (hcreate : ConfMem.create = some m₀)
    (hparse : yyparseMem .tasks m₀ ts = some (true, m)) :
    ∃ st xs, yyparse .tasks ⟨[], none⟩ ts = .accept st ∧ m.Refines st xs := by
  obtain ⟨m₁, hcreate', h₀⟩ := create_refines
  rw [hcreate] at hcreate'
  cases hcreate'
  have hrel := refines_yyparse .tasks ts h₀
  rw [hparse] at hrel
  generalize hy : (yyparse .tasks freshState ts).loaded = y at hrel
  cases hrel with
  | @some _ r' hr =>
      obtain ⟨ok, st⟩ := r'
      obtain ⟨hok, xs, h⟩ := hr
      obtain rfl : true = ok := hok
      refine ⟨st, xs, ?_, h⟩
      unfold freshState at hy
      cases hp : yyparse .tasks ⟨[], none⟩ ts with
      | accept st' =>
          rw [hp] at hy
          cases hy
          rfl
      | syntaxError st' =>
          rw [hp] at hy
          cases hy
      | fault =>
          rw [hp] at hy
          cases hy

/-- What an accepted configuration leaves in memory is a configuration of the
supervisor. -/
theorem exists_shown (hacc : yyparse .tasks ⟨[], none⟩ ts = .accept st) (h : m.Refines st xs) :
    ∃ cfg : Config Nat, cfg.Shown m := by
  have hnone : ParseState.Fresh ⟨[], none⟩ := ⟨by simp, by simp⟩
  have hfresh := yyparse_fresh hnone hacc
  have hshows := h.lists.shows (Function.update_self ..)
  have hvalue : ∀ t ∈ xs, ∃ task ∈ st.tasksList, m.tasks t = some task := by
    intro t ht
    have hmem := List.mem_map_of_mem (f := m.tasks) ht
    rw [h.values] at hmem
    obtain ⟨task, htask, heq⟩ := List.mem_map.mp hmem
    exact ⟨task, htask, heq.symm⟩
  refine ⟨⟨xs, fun t => (m.tasks t).getD taskInit, ?_, fun t ht => ?_⟩, hshows, fun t ht => ?_⟩
  · exact List.Nodup.of_map _ (List.nodup_cons.mp hshows.nodup).2
  · obtain ⟨task, htask, heq⟩ := hvalue t ht
    simpa [heq] using hfresh.tasksList task htask
  · obtain ⟨task, -, heq⟩ := hvalue t ht
    simp [heq]

end

/-! ## The program of a task -/

/-- The program runs as the block says: with its path, its words and its directory,
and in the environment of bitzer but for `PWD` and `_`. -/
structure Program.Executes (prog : Program) (b : List Opt) (environ : Str → Option Str) :
    Prop where
  path : (b.filterMap Opt.path?).getLast? = some prog.path
  argv : prog.argv.Contains (.str prog.path :: (b.flatMap Opt.words).map .str ++ [.null])
  dir : prog.dir = (b.filterMap Opt.dir?).getLast?
  pwd : prog.environ pwd = ((b.filterMap Opt.dir?).getLast?).or (environ pwd)
  underscore : prog.environ underscore = some prog.path
  environ : ∀ name, name ≠ Bitzer.pwd → name ≠ Bitzer.underscore → prog.environ name = environ name

section
variable {ok : ChildCall → Bool} {prefixDir : Str} {origmask : Signo → Bool} {task : Task}
  {c c' : ChildProc}

theorem taskRedirectIo_dir (ok : ChildCall → Bool) (prefixDir name : Str) (c : ChildProc) :
    (taskRedirectIo ok prefixDir name c).2.dir = c.dir ∧
      (taskRedirectIo ok prefixDir name c).2.environ = c.environ := by
  unfold taskRedirectIo
  split
  · dsimp only
    split <;> exact ⟨rfl, rfl⟩
  · exact ⟨rfl, rfl⟩

theorem setenv_self (name value : Str) (c : ChildProc) :
    (c.setenv name value).environ name = some value :=
  Function.update_self (β := fun _ => Option Str) ..

theorem setenv_of_ne {name name' : Str} (h : name' ≠ name) (value : Str) (c : ChildProc) :
    (c.setenv name value).environ name' = c.environ name' :=
  Function.update_of_ne (β := fun _ => Option Str) h ..

/-- The directory and the environment at `execv`. -/
theorem taskPreRun_environ (h : taskPreRun ok prefixDir origmask task c = some c') :
    c'.dir = task.dir.or c.dir ∧ c'.environ pwd = task.dir.or (c.environ pwd) ∧
      c'.environ underscore = some (task.path.getD []) ∧
      ∀ name, name ≠ pwd → name ≠ underscore → c'.environ name = c.environ name := by
  obtain ⟨c₁, hdir, hrest⟩ := Option.bind_eq_some_iff.mp h
  obtain ⟨hd, he⟩ := taskRedirectIo_dir ok prefixDir (task.name.getD []) c
  have hne : pwd ≠ underscore := by decide
  have h₁ : c₁.dir = task.dir.or c.dir ∧ c₁.environ pwd = task.dir.or (c.environ pwd) ∧
      ∀ name, name ≠ pwd → c₁.environ name = c.environ name := by
    unfold taskChdir at hdir
    split at hdir
    · rename_i hnone
      cases hdir
      rw [hnone, hd, he]
      exact ⟨rfl, rfl, fun _ _ => rfl⟩
    · rename_i dir hsome
      split at hdir
      · cases hdir
        rw [hsome]
        refine ⟨rfl, setenv_self .., fun name hn => ?_⟩
        exact (setenv_of_ne hn ..).trans (congrFun he name)
      · cases hdir
  split at hrest
  · cases hrest
    refine ⟨h₁.1, ?_, setenv_self underscore (task.path.getD []) c₁, fun name hp hu => ?_⟩
    · exact (setenv_of_ne hne (task.path.getD []) c₁).trans h₁.2.1
    · exact (setenv_of_ne hu (task.path.getD []) c₁).trans (h₁.2.2 name hp)
  · cases hrest

end

section
variable {τ : Type} [DecidableEq τ] {L : Launch τ} {w : Whole τ} {t : τ} {caller : Caller τ}
  {ok : ChildCall → Bool} {prog : Program} {b : List Opt}

omit [DecidableEq τ] in
theorem life_forking {r : Bool} {es : List (Event τ)} (h : life r es = some .forking) :
    r = true := by
  induction es using List.reverseRecOn with
  | nil => cases h
  | append_singleton es e =>
      rw [life, List.foldlM_append] at h
      obtain ⟨ph, -, h⟩ := Option.bind_eq_some_iff.mp h
      have h : ph.next r e = some .forking := by simpa using h
      unfold Phase.next at h
      split at h
      · split at h
        · assumption
        · cases h
      · split at h
        · assumption
        · cases h
      · cases h
      · cases h
      · split at h <;> cases h
      · cases h

/-- A task at its `fork` has a name and a path. -/
theorem runnable_fork (hw : Reach L.step anyInput L.whole w) (hpc : w.sup.pc = .fork t caller) :
    t ∈ L.env.cfg.tasks ∧ (L.env.cfg.task t).runnable = true := by
  have hr := (kept_reach hw).sup.any
  have hok := (indexed_reach hr).2
  simp only [PcOk, hpc] at hok
  obtain ⟨hm, hnr⟩ := hok.2 t List.mem_cons_self
  obtain ⟨ph, hph, hin⟩ := (lives_reach hr).listed t hm
  obtain rfl := hin.forking_of_pc hpc hnr
  exact ⟨hm, life_forking hph⟩

/-- At every start of the task its program is the same. -/
theorem executes_of_means (hmean : (L.env.cfg.task t).Means b)
    (hw : Reach L.step anyInput L.whole w) (hpc : w.sup.pc = .fork t caller)
    (hexec : L.taskRunChild w t ok = some prog) : prog.Executes b L.environ := by
  obtain ⟨hm, hrunnable⟩ := runnable_fork hw hpc
  have hconf := sameConf_reach (kept_reach hw).sup.any t
  obtain ⟨ctx, hctx, hchild⟩ := Option.bind_eq_some_iff.mp hexec
  obtain ⟨c, hpre, rfl⟩ := Option.map_eq_some_iff.mp hchild
  obtain ⟨hdir, hpwd, hunder, henv⟩ := taskPreRun_environ hpre
  obtain ⟨path, hpath⟩ : ∃ path, (L.env.cfg.task t).path = some path := by
    rw [Task.runnable, Bool.and_eq_true] at hrunnable
    exact Option.isSome_iff_exists.mp hrunnable.2
  have hdir' : (w.sup.task t).dir = (b.filterMap Opt.dir?).getLast? := hconf.dir.trans hmean.dir
  have hpath' : (execv (w.sup.task t) c).path = path := by
    show (w.sup.task t).path.getD [] = path
    rw [hconf.path, hpath]
    rfl
  refine ⟨?_, ?_, ?_, ?_, ?_, henv⟩
  · rw [hpath', ← hmean.path, hpath]
  · have hargs := hmean.args
    rw [hpath] at hargs
    rw [hpath']
    show (w.sup.task t).args.Contains _
    rw [hconf.args]
    exact hargs
  · show c.dir = _
    rw [hdir, hdir']
    exact Option.or_none
  · show c.environ pwd = _
    rw [hpwd, hdir']
    rfl
  · show c.environ underscore = some (execv (w.sup.task t) c).path
    rw [hunder]
    rfl

end

/-- **From the text to the programs.** An accepted configuration leaves in memory a
configuration of the supervisor. In every run of bitzer on it, at the first start
and at every restart, the program that a task's child executes is the one of its
block, the tasks being in the reverse order of the blocks: path, words and
directory are those of the block, and the environment is bitzer's own but for `PWD`
and `_`, whatever `env` options the block has. -/
theorem programs_of_text {text : Str} {m₀ m : ConfMem} (hcreate : ConfMem.create = some m₀)
    (hparse : yyparseMem .tasks m₀ (yylex text) = some (true, m)) :
    (∃ cfg : Config Nat, cfg.Shown m) ∧ ∃ bs, Derives (yylex text) bs ∧
      ∀ L : Launch Nat, L.env.cfg.Shown m → List.Forall₂ (fun t b =>
        ∀ w caller ok prog, Reach L.step anyInput L.whole w → w.sup.pc = .fork t caller →
          L.taskRunChild w t ok = some prog → prog.Executes b L.environ)
        L.env.cfg.tasks bs.reverse := by
  obtain ⟨st, xs, hacc, h⟩ := accepted_refines hcreate hparse
  obtain ⟨bs, tasks, hbs, -, hst, hmean⟩ := accept_conf hacc
  rw [List.append_nil] at hst
  refine ⟨exists_shown hacc h, bs, hbs, fun L hshown => ?_⟩
  obtain ⟨-, htasks⟩ := shown_iff h hshown
  obtain rfl : L.env.cfg.tasks.map L.env.cfg.task = tasks := by rw [htasks, hst]
  refine (List.forall₂_map_left_iff.mp hmean).imp fun t b hm w caller ok prog hw hpc hexec => ?_
  exact executes_of_means hm hw hpc hexec

/-- `task { name s; path /b; args 1; }`. -/
def oneBlock : Str := bytes "task { name s; path /b; args 1; }".toList

/-- Its program, where bitzer is started from a shell. -/
theorem programs_of_text_oneBlock : ∃ (L : Launch Nat) (w : Whole Nat) (t : Nat) (prog : Program)
    (b : List Opt), L.taskRunChild w t (fun _ => true) = some prog ∧
      prog.Executes b L.environ := by
  obtain ⟨m₀, hcreate, h₀⟩ := create_refines
  have hacc : (yyparse .tasks freshState (yylex oneBlock)).loaded.map (fun r =>
      decide (r.1 = true) && decide (r.2.tasksList.map Task.runnable = [true])) = some true := by
    decide +kernel
  have hrel := refines_yyparse .tasks (yylex oneBlock) h₀
  generalize hx : yyparseMem .tasks m₀ (yylex oneBlock) = x,
    hy : (yyparse .tasks freshState (yylex oneBlock)).loaded = y at hrel
  rw [hy] at hacc
  cases hrel with
  | none => cases hacc
  | @some r r' hr =>
      obtain ⟨ok, m⟩ := r
      simp only [Option.map_some, Option.some.injEq, Bool.and_eq_true, decide_eq_true_eq] at hacc
      obtain ⟨hok, xs, h⟩ := hr
      obtain rfl : ok = true := hok.trans hacc.1
      obtain ⟨⟨cfg, hshown⟩, bs, -, hall⟩ := programs_of_text hcreate hx
      let L : Launch Nat :=
        { shellLaunch ⟨[]⟩ (fun _ => false) with
          env := { oneTask with cfg := cfg }
          mask_eq := fun _ => rfl }
      obtain ⟨hxs, htasks⟩ := shown_iff h hshown
      rw [← htasks, List.map_map] at hacc
      obtain ⟨t, rest, hcons, hrunnable, hrest⟩ := List.map_eq_cons_iff.mp hacc.2
      have hforall := hall L hshown
      rw [show L.env.cfg.tasks = t :: rest from hcons] at hforall
      obtain ⟨b, _, hb, -, -⟩ := List.forall₂_cons_left_iff.mp hforall
      obtain ⟨w, prog, hw, hpc, hexec⟩ := first_child (L := L) hcons hrunnable
      exact ⟨L, w, t, prog, b, hexec, hb w _ _ prog hw hpc hexec⟩

end Bitzer
