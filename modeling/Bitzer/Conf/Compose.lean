import Bitzer.Conf.Comments
import Bitzer.Conf.Leftover

/-!
# Configurations one after the other

What a configuration means does not depend on what is loaded before it: text that
follows a whole configuration is scanned and parsed as it is alone, and its tasks
come in front of those that are there.
-/

namespace Bitzer

/-- Load files into one `conf_t` as long as that succeeds. -/
def confLoadAll (k : ConfCalls) : List Str → ParseState → Option (Bool × ParseState)
  | [], st => some (true, st)
  | c :: cs, st =>
      match confLoad k c st with
      | some (true, st') => confLoadAll k cs st'
      | r => r

/-- It ends in a newline. -/
def WholeLines (c : Str) : Prop := ∃ u, c = u ++ [10]

/-- The state behind the tasks `l`. -/
def ParseState.onto (l : List Task) (st : ParseState) : ParseState := ⟨st.tasksList ++ l, st.task⟩

def Outcome.onto (l : List Task) : Outcome → Outcome
  | .accept st => .accept (st.onto l)
  | .syntaxError st => .syntaxError (st.onto l)
  | .fault => .fault

section
variable {k : ConfCalls} {a b c : Str} {st st' : ParseState} {l : List Task} {pos pos' : Pos}
  {t : Token} {ts : List Token} {f : Action} {files : List Str}

/-! ## The scanner -/

theorem tokensFrom_lines (u b : Str) :
    tokensFrom true (u ++ 10 :: b) = tokensFrom true (u ++ [10]) ++ tokensFrom true b := by
  induction hn : u.length using Nat.strong_induction_on generalizing u with
  | _ n ih =>
    rcases line_cases u with h10 | ⟨v, w, rfl, h10⟩
    · exact tokensFrom_line h10
    · have hlt : w.length < n := by
        rw [← hn, List.length_append, List.length_cons]
        omega
      have hline : ∀ rest, tokensFrom true (v ++ 10 :: rest) =
          tokensFrom true (v ++ [10]) ++ tokensFrom true rest := fun _ => tokensFrom_line h10
      calc tokensFrom true (v ++ 10 :: w ++ 10 :: b)
          = tokensFrom true (v ++ 10 :: (w ++ 10 :: b)) := by rw [List.append_assoc]; rfl
        _ = tokensFrom true (v ++ [10]) ++ (tokensFrom true (w ++ [10]) ++ tokensFrom true b) := by
            rw [hline, ih _ hlt w rfl]
        _ = tokensFrom true (v ++ 10 :: (w ++ [10])) ++ tokensFrom true b := by
            rw [hline (w ++ [10]), List.append_assoc]
        _ = tokensFrom true (v ++ 10 :: w ++ [10]) ++ tokensFrom true b := by
            rw [List.append_assoc v]; rfl

/-- Behind a newline the scan begins anew. -/
theorem yylex_append (h : WholeLines a) : yylex (a ++ b) = yylex a ++ yylex b := by
  obtain ⟨u, rfl⟩ := h
  rw [List.append_assoc]
  exact tokensFrom_lines u b

/-! ## The parser -/

theorem Pos.next_prepends (h : pos.next t = some (pos', f)) : f.Prepends := by
  obtain ⟨-, rfl⟩ | ⟨-, rfl⟩ := Pos.next_stores h
  · exact taskAction_prepends
  · exact optsAction_prepends _

/-- The tasks that are there already make no difference. -/
theorem yyparse_onto (pos : Pos) (st : ParseState) (ts : List Token) (l : List Task) :
    yyparse pos (st.onto l) ts = (yyparse pos st ts).onto l := by
  induction ts generalizing pos st with
  | nil =>
      rw [yyparse, yyparse]
      split <;> rfl
  | cons t ts ih =>
      rw [yyparse, yyparse]
      cases hn : pos.next t with
      | none => rfl
      | some step =>
          obtain ⟨pos', f⟩ := step
          have hf : f (st.onto l) = (f st).map (ParseState.onto l) :=
            Pos.next_prepends hn st.tasksList l st.task
          simp only [hf]
          cases f st with
          | none => rfl
          | some st' => exact ih pos' st'

/-- Where a configuration ends, the next one begins. -/
theorem yyparse_accept_append {us : List Token} (h : yyparse .tasks st ts = .accept st') :
    yyparse .tasks st (ts ++ us) = yyparse .tasks st' us := by
  obtain ⟨f, hrun, hf⟩ := yyparse_accept.mp h
  exact yyparse_append hrun hf

/-! ## The loads -/

theorem confLoad_onto (hk : k.Succeed) (c : Str) (st : ParseState) (l : List Task) :
    confLoad k c (st.onto l) = (confLoad k c st).map fun r => (r.1, r.2.onto l) := by
  by_cases hc : c = []
  · rw [hc, confLoad_nil hk, confLoad_nil hk]
    rfl
  · rw [confLoad_cons hk hc, confLoad_cons hk hc, yyparse_onto]
    cases yyparse .tasks st (yylex c) <;> rfl

theorem accept_of_confLoad (hk : k.Succeed) (h : confLoad k c st = some (true, st')) :
    c ≠ [] ∧ yyparse .tasks st (yylex c) = .accept st' := by
  by_cases hc : c = []
  · rw [hc, confLoad_nil hk] at h
    cases h
  · rw [confLoad_cons hk hc] at h
    refine ⟨hc, ?_⟩
    cases hp : yyparse .tasks st (yylex c) with
    | accept st₁ =>
        rw [hp] at h
        cases h
        rfl
    | syntaxError st₁ =>
        rw [hp] at h
        cases h
    | fault =>
        rw [hp] at h
        cases h

/-- A file behind one that is loaded. -/
theorem confLoad_append (hk : k.Succeed) (ha : WholeLines a) (hb : b ≠ [])
    (h : confLoad k a st = some (true, st')) : confLoad k (a ++ b) st = confLoad k b st' := by
  obtain ⟨hne, hacc⟩ := accept_of_confLoad hk h
  rw [confLoad_cons hk (List.append_ne_nil_of_right_ne_nil a hb), confLoad_cons hk hb,
    yylex_append ha, yyparse_accept_append hacc]

/-- A file that is loaded adds its own tasks, in front. -/
theorem confLoad_tasks (hk : k.Succeed) (h : confLoad k c ⟨l, none⟩ = some (true, st)) :
    ∃ tasks, confLoad k c freshState = some (true, ⟨tasks, none⟩) ∧ st = ⟨tasks ++ l, none⟩ := by
  have honto := confLoad_onto hk c freshState l
  have hstate : freshState.onto l = ⟨l, none⟩ := rfl
  rw [hstate, h] at honto
  obtain ⟨⟨ok, st₀⟩, h₀, heq⟩ := Option.map_eq_some_iff.mp honto.symm
  cases heq
  obtain ⟨-, hacc⟩ := accept_of_confLoad hk h₀
  obtain ⟨-, tasks, -, -, rfl, -⟩ := accept_conf hacc
  rw [List.append_nil] at h₀ ⊢
  exact ⟨tasks, h₀, rfl⟩

theorem confLoadAll_cons : confLoadAll k (c :: files) st = some (true, st') ↔
    ∃ st₁, confLoad k c st = some (true, st₁) ∧ confLoadAll k files st₁ = some (true, st') := by
  rw [confLoadAll]
  generalize confLoad k c st = r
  split
  · rename_i st₁
    constructor
    · intro h
      exact ⟨st₁, rfl, h⟩
    · rintro ⟨st₂, heq, h⟩
      cases heq
      exact h
  · rename_i hno
    constructor
    · intro h
      exact absurd h (hno st')
    · rintro ⟨st₁, heq, -⟩
      exact absurd heq (hno st₁)

theorem confLoadAll_append {last : Str} (hk : k.Succeed) (hlines : ∀ c ∈ files, WholeLines c)
    (hlast : last ≠ []) (h : confLoadAll k files st = some (true, st')) :
    confLoad k (files.flatten ++ last) st = confLoad k last st' := by
  induction files generalizing st with
  | nil =>
      cases h
      rfl
  | cons c files ih =>
      obtain ⟨hc, hlines⟩ := List.forall_mem_cons.mp hlines
      obtain ⟨st₁, hload, hrest⟩ := confLoadAll_cons.mp h
      rw [List.flatten_cons, List.append_assoc,
        confLoad_append hk hc (List.append_ne_nil_of_right_ne_nil _ hlast) hload]
      exact ih hlines hrest

theorem confLoadAll_tasks (hk : k.Succeed) (h : confLoadAll k files ⟨l, none⟩ = some (true, st)) :
    ∃ parts : List (List Task),
      List.Forall₂ (fun c tasks => confLoad k c freshState = some (true, ⟨tasks, none⟩))
        files parts ∧ st = ⟨parts.reverse.flatten ++ l, none⟩ := by
  induction files generalizing l with
  | nil =>
      cases h
      exact ⟨[], .nil, rfl⟩
  | cons c files ih =>
      obtain ⟨st₁, hload, hrest⟩ := confLoadAll_cons.mp h
      obtain ⟨tasks, hc, rfl⟩ := confLoad_tasks hk hload
      obtain ⟨parts, hparts, rfl⟩ := ih hrest
      exact ⟨tasks :: parts, .cons hc hparts, by simp⟩

end

/-- **Composition.** Files of whole lines that are loaded one after the other into one
`conf_t` are loaded as their concatenation, whatever the last one is; and each of
them adds the tasks that it has alone, in front of those of the files before it. -/
theorem load_files {k : ConfCalls} {files : List Str} {last : Str} {st : ParseState}
    (hk : k.Succeed) (hlines : ∀ c ∈ files, WholeLines c) (hlast : last ≠ [])
    (h : confLoadAll k files freshState = some (true, st)) :
    confLoad k (files.flatten ++ last) freshState = confLoad k last st ∧
    (∃ parts : List (List Task),
      List.Forall₂ (fun c tasks => confLoad k c freshState = some (true, ⟨tasks, none⟩))
        files parts ∧ st = ⟨parts.reverse.flatten, none⟩) ∧
    confLoad k last st =
      (confLoad k last freshState).map fun r => (r.1, r.2.onto st.tasksList) := by
  obtain ⟨parts, hparts, rfl⟩ := confLoadAll_tasks hk h
  rw [List.append_nil] at h ⊢
  exact ⟨confLoadAll_append hk hlines hlast h, ⟨parts, hparts, rfl⟩,
    confLoad_onto hk last freshState _⟩

/-- `task { name s; }` on a line. -/
def oneLine : Str := bytes "task { name s; }".toList ++ [10]

/-- It is loaded twice. -/
theorem load_files_twice :
    confLoad ⟨true, true, true, true⟩ (oneLine ++ oneLine) freshState =
      (confLoad ⟨true, true, true, true⟩ oneLine freshState).map fun r =>
        (r.1, r.2.onto r.2.tasksList) := by
  obtain ⟨st, hst⟩ : ∃ st, confLoad ⟨true, true, true, true⟩ oneLine freshState =
      some (true, st) := by
    have hok : (confLoad ⟨true, true, true, true⟩ oneLine freshState).map Prod.fst =
        some true := by decide +kernel
    obtain ⟨⟨ok, st⟩, hr, rfl⟩ := Option.map_eq_some_iff.mp hok
    exact ⟨st, hr⟩
  have hall : confLoadAll ⟨true, true, true, true⟩ [oneLine] freshState = some (true, st) :=
    confLoadAll_cons.mpr ⟨st, hst, rfl⟩
  have hlines : ∀ c ∈ [oneLine], WholeLines c := List.forall_mem_singleton.mpr ⟨_, rfl⟩
  have hne : oneLine ≠ [] := List.append_ne_nil_of_right_ne_nil _ (List.cons_ne_nil _ _)
  obtain ⟨hcat, -, honto⟩ := load_files ⟨rfl, rfl, rfl, rfl⟩ hlines hne hall
  rw [List.flatten_singleton] at hcat
  rw [hcat, honto, hst]
  rfl

end Bitzer
