import Bitzer.Conf.Meaning

/-!
# Closing the tasks

`task_close` on the tasks of a configuration, and the strings it releases. It
walks `args` up to the first `NULL`, and relies on `args[0]` for the path; where
a task has no path, `args[0]` is that `NULL`.
-/

namespace Bitzer

/-- `while (*ptr) free(*ptr++);` from `ptr` on. -/
def freeStrs : List Slot → Option (List Str)
  | [] => none
  | .indeterminate :: _ => none
  | .null :: _ => some []
  | .str s :: slots => (freeStrs slots).map (s :: ·)

/-- The walk through `envp`, which may be `NULL`. -/
def freeEnvp : Option (List Slot) → Option (List Str)
  | none => some []
  | some slots => freeStrs slots

/-- `task_close`: the strings that it frees, in this order. `log_path` is set in
the child only. -/
def taskClose (task : Task) : Option (List Str) := do
  let args ← task.args.slots.bind freeStrs
  let envp ← freeEnvp task.envp.slots
  return args ++ (envp ++ (task.name.toList ++ task.dir.toList))

/-- The loop of `context_close`: what each `task_close` frees. -/
def contextClose : List Task → Option (List (List Str)) := List.mapM taskClose

def Slot.str? : Slot → Option Str
  | .str s => some s
  | _ => none

/-- The slots below `_len`. -/
def StrArray.used (a : StrArray) : List Slot := (a.slots.getD []).take a.len

/-- The argument words, behind the path. -/
def Task.words (task : Task) : List Str := task.args.used.tail.filterMap Slot.str?

def Task.entries (task : Task) : List Str := task.envp.used.filterMap Slot.str?

/-- The strings that the task refers to. -/
def Task.strings (task : Task) : List Str :=
  task.path.toList ++ (task.words ++ (task.entries ++ (task.name.toList ++ task.dir.toList)))

/-- The block has a path, or no argument words. -/
def PathOrNoWords (b : List Opt) : Prop :=
  (∃ s, Opt.path s ∈ b) ∨ b.flatMap Opt.words = []

section
variable {task : Task} {tasks : List Task} {b : List Opt} {bs : List (List Opt)}

theorem filterMap_str? {ws : List Str} {rest : List Slot} :
    (ws.map Slot.str ++ rest).filterMap Slot.str? = ws ++ rest.filterMap Slot.str? := by
  induction ws with
  | nil => rfl
  | cons w ws ih =>
      rw [List.map_cons, List.cons_append, List.filterMap_cons, ih]
      rfl

theorem freeStrs_map {ws : List Str} {rest : List Slot} :
    freeStrs (ws.map .str ++ .null :: rest) = some ws := by
  induction ws with
  | nil => rfl
  | cons w ws ih => rw [List.map_cons, List.cons_append, freeStrs, ih, Option.map_some]

theorem StrArray.Contains.used {a : StrArray} {vs : List Slot} (h : a.Contains vs) :
    a.used = vs := by
  obtain ⟨junk, hslots, hlen, -⟩ := h
  rw [StrArray.used, hslots, hlen, List.take_left]

/-- The walk through an array stops at its first `NULL`. -/
theorem StrArray.Contains.walk {a : StrArray} {ws : List Str} {rest : List Slot}
    (h : a.Contains (ws.map .str ++ .null :: rest)) :
    ∃ slots, a.slots = some slots ∧ freeStrs slots = some ws := by
  obtain ⟨junk, hslots, -, -⟩ := h
  rw [List.append_assoc, List.cons_append] at hslots
  cases hs : a.slots with
  | none =>
      rw [hs, Option.getD_none] at hslots
      exact absurd hslots.symm (by simp)
  | some slots =>
      rw [hs, Option.getD_some] at hslots
      exact ⟨slots, rfl, by rw [hslots, freeStrs_map]⟩

theorem Task.Means.words (h : task.Means b) : task.words = b.flatMap Opt.words := by
  rw [Task.words, h.args.used, List.cons_append, List.tail_cons, filterMap_str?]
  exact List.append_nil _

theorem Task.Means.entries (h : task.Means b) : task.entries = b.flatMap Opt.entries := by
  rw [Task.entries]
  by_cases he : b.flatMap Opt.entries = []
  · rw [StrArray.used, h.no_env he, he]
    simp
  · rw [(h.env he).used, filterMap_str?]
    exact List.append_nil _

/-- The walk through `envp` frees the entries. -/
theorem Task.Means.freeEnvp (h : task.Means b) :
    freeEnvp task.envp.slots = some task.entries := by
  rw [h.entries]
  by_cases he : b.flatMap Opt.entries = []
  · rw [h.no_env he, he]
    rfl
  · obtain ⟨slots, hslots, hwalk⟩ := (h.env he).walk
    rw [hslots]
    exact hwalk

/-- The walk through `args` frees the path and the words, or nothing. -/
theorem Task.Means.freeArgs (h : task.Means b) :
    task.args.slots.bind freeStrs =
      some (if task.path = none then [] else task.path.toList ++ task.words) := by
  have hargs := h.args
  rw [h.words]
  cases hp : task.path with
  | none =>
      -- `args[0]` is `NULL`
      rw [hp] at hargs
      have hargs : task.args.Contains (([] : List Str).map .str ++ .null ::
        ((b.flatMap Opt.words).map .str ++ [.null])) := hargs
      obtain ⟨slots, hslots, hwalk⟩ := hargs.walk
      rw [hslots]
      exact hwalk
  | some p =>
      rw [hp] at hargs
      have hargs : task.args.Contains ((p :: b.flatMap Opt.words).map .str ++ .null :: []) := hargs
      obtain ⟨slots, hslots, hwalk⟩ := hargs.walk
      rw [hslots]
      exact hwalk

theorem Task.Means.path_eq_none (h : task.Means b) :
    task.path = none ↔ ¬∃ s, Opt.path s ∈ b := by
  rw [h.path, List.getLast?_eq_none_iff, List.filterMap_eq_nil_iff]
  constructor
  · rintro hno ⟨s, hs⟩
    cases hno _ hs
  · intro hno x hx
    cases x with
    | path s => exact absurd ⟨s, hx⟩ hno
    | _ => rfl

/-- `task_close` frees the strings of the task if and only if its block has a
path or no words. -/
theorem taskClose_means (h : task.Means b) :
    ∃ freed, taskClose task = some freed ∧ (freed.Perm task.strings ↔ PathOrNoWords b) := by
  refine ⟨_, by
    rw [taskClose, h.freeArgs, h.freeEnvp]
    rfl, ?_⟩
  rw [PathOrNoWords, ← h.words]
  by_cases hp : task.path = none
  · have hno := h.path_eq_none.mp hp
    rw [if_pos hp, Task.strings, hp, or_iff_right hno]
    constructor
    · intro hperm
      have hlen := hperm.length_eq
      simp only [List.length_append, List.length_nil, Option.toList_none] at hlen
      exact List.length_eq_zero_iff.mp (by omega)
    · intro hw
      rw [hw]
      exact .refl _
  · have hpath : ∃ s, Opt.path s ∈ b := by
      by_contra hno
      exact hp (h.path_eq_none.mpr hno)
    rw [if_neg hp, Task.strings, List.append_assoc]
    exact iff_of_true (.refl _) (Or.inl hpath)

theorem contextClose_means (h : List.Forall₂ Task.Means tasks bs) :
    ∃ freed, contextClose tasks = some freed ∧
      List.Forall₂ (fun (x : Task × List Str) b => x.2.Perm x.1.strings ↔ PathOrNoWords b)
        (tasks.zip freed) bs := by
  induction h with
  | nil => exact ⟨[], rfl, .nil⟩
  | cons hb _ ih =>
      obtain ⟨f, hclose, hiff⟩ := taskClose_means hb
      obtain ⟨freed, hrun, hrest⟩ := ih
      refine ⟨f :: freed, ?_, .cons hiff hrest⟩
      rw [contextClose, List.mapM_cons, hclose]
      simp only [Option.bind_eq_bind, Option.bind_some]
      rw [← contextClose, hrun]
      rfl

/-- **Closing.** The tasks of an accepted configuration are all closed, and what is
freed for a task is its strings, each once, if and only if its block has a path
or no argument words. -/
theorem closed_once_iff {ts : List Token} {st : ParseState} (h : Derives ts bs)
    (hacc : yyparse .tasks ⟨[], none⟩ ts = .accept st) :
    ∃ freed, contextClose st.tasksList = some freed ∧
      List.Forall₂ (fun (x : Task × List Str) b => x.2.Perm x.1.strings ↔ PathOrNoWords b)
        (st.tasksList.zip freed) bs.reverse := by
  obtain ⟨-, tasks, rfl, hmean⟩ := accept_means h hacc
  rw [List.append_nil]
  exact contextClose_means hmean

/-- `task { name s; path /b; args 1; }`. -/
theorem closed_once_iff_path :
    ∃ st : ParseState, ∃ freed, contextClose st.tasksList = some freed ∧
      List.Forall₂ (fun (x : Task × List Str) b => x.2.Perm x.1.strings ↔ PathOrNoWords b)
        (st.tasksList.zip freed) [[.name [115], .path [47, 98], .args [[49]]]] :=
  have hname : Writs _ _ := .snoc .nil (.name (.alphaWord [115]))
  have hwords : Words _ _ := .snoc .nil (.plain (t := .number [49]) rfl)
  ⟨_, closed_once_iff (.snoc .nil (.snoc (.snoc hname (.path [47, 98])) (.args hwords))) rfl⟩

/-- `task { name s; args 1; }`: the word is not freed. -/
theorem not_closed_once :
    ¬∀ ts st, yyparse .tasks ⟨[], none⟩ ts = .accept st → ∀ task ∈ st.tasksList,
      ∃ freed, taskClose task = some freed ∧ freed.Perm task.strings := by
  intro h
  obtain ⟨freed, hclose, hperm⟩ := h
    [.tokenTask, .openBrace, .tokenName, .alphaWord [115], .semicolon, .tokenArgs, .number [49],
      .semicolon, .endBrace] _ rfl _ List.mem_cons_self
  cases hclose
  exact absurd hperm.length_eq (by decide)

end

end Bitzer
