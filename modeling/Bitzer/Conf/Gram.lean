import Bitzer.Conf.Action
import Bitzer.Conf.Scan

/-!
# The grammar and the parser

The productions of `conf_gram.y`, each with the action it runs, and the parser
that bison makes of them: its position in the item it is in, the steps on the
next token, and the actions. Every action of the grammar is run as soon as the
last token of its production is read. `parser_iff` says that the parser accepts
the token sequences that derive from `tasks`, with the actions of the derivation
in the order of the text.
-/

namespace Bitzer

/-! ## The productions -/

inductive TaskName : List Token → Str → Prop
  | string (s : Str) : TaskName [.string s] s
  | alphaWord (s : Str) : TaskName [.alphaWord s] s
  | quoted (s : Str) : TaskName [.quote, .alphaWord s, .quote] s

/-- The value of a token that is an `innerarg`; without quotes it is an `arg`. -/
def Token.innerArg : Token → Option Str
  | .string s => some s
  | .argKey s => some s
  | .alphaWord s => some s
  | .alnumWord s => some s
  | .number s => some s
  | _ => none

inductive Arg : List Token → Str → Prop
  | plain {t : Token} {s : Str} : t.innerArg = some s → Arg [t] s
  | quoted {t : Token} {s : Str} : t.innerArg = some s → Arg [.quote, t, .quote] s

inductive ArgsList : List Token → Action → Prop
  | nil : ArgsList [] .skip
  | snoc {ts us : List Token} {f : Action} {s : Str} : ArgsList ts f → Arg us s →
      ArgsList (ts ++ us) (f.seq (argAction s))

inductive TaskOpt : List Token → Action → Prop
  | name {ts : List Token} {s : Str} : TaskName ts s →
      TaskOpt (.tokenName :: ts ++ [.semicolon]) (nameAction s)
  | path (s : Str) : TaskOpt [.tokenPath, .path s, .semicolon] (pathAction s)
  | args {ts : List Token} {f : Action} : ArgsList ts f →
      TaskOpt (.tokenArgs :: ts ++ [.semicolon]) f
  | env (s : Str) : TaskOpt [.tokenEnv, .envar s, .semicolon] (envAction s)
  | dir (s : Str) : TaskOpt [.tokenDir, .path s, .semicolon] (dirAction s)

inductive TaskOpts : List Token → Action → Prop
  | nil : TaskOpts [] .skip
  | snoc {ts us : List Token} {f g : Action} : TaskOpts ts f → TaskOpt us g →
      TaskOpts (ts ++ us) (f.seq g)

inductive TaskBlock : List Token → Action → Prop
  | block {ts : List Token} {f : Action} : TaskOpts ts f →
      TaskBlock (.tokenTask :: .openBrace :: ts ++ [.endBrace]) (f.seq taskAction)

inductive Tasks : List Token → Action → Prop
  | nil : Tasks [] .skip
  | snoc {ts us : List Token} {f g : Action} : Tasks ts f → TaskBlock us g →
      Tasks (ts ++ us) (f.seq g)

/-! ## The parser -/

/-- What has been read of the item that the parser is in. -/
inductive Pos where
  | tasks
  | task
  | taskOpts
  | name
  | nameQuote
  | nameEndQuote (s : Str)
  | nameEnd (s : Str)
  | path
  | pathEnd (s : Str)
  | argsList
  | argQuote
  | argEndQuote (s : Str)
  | env
  | envEnd (s : Str)
  | dir
  | dirEnd (s : Str)
  deriving DecidableEq

/-- The next token: where it leads, and the action that is run. `none` is a
syntax error. -/
def Pos.next : Pos → Token → Option (Pos × Action)
  | .tasks, .tokenTask => some (.task, .skip)
  | .task, .openBrace => some (.taskOpts, .skip)
  | .taskOpts, .endBrace => some (.tasks, taskAction)
  | .taskOpts, .tokenName => some (.name, .skip)
  | .taskOpts, .tokenPath => some (.path, .skip)
  | .taskOpts, .tokenArgs => some (.argsList, .skip)
  | .taskOpts, .tokenEnv => some (.env, .skip)
  | .taskOpts, .tokenDir => some (.dir, .skip)
  | .name, .string s => some (.nameEnd s, .skip)
  | .name, .alphaWord s => some (.nameEnd s, .skip)
  | .name, .quote => some (.nameQuote, .skip)
  | .nameQuote, .alphaWord s => some (.nameEndQuote s, .skip)
  | .nameEndQuote s, .quote => some (.nameEnd s, .skip)
  | .nameEnd s, .semicolon => some (.taskOpts, nameAction s)
  | .path, .path s => some (.pathEnd s, .skip)
  | .pathEnd s, .semicolon => some (.taskOpts, pathAction s)
  | .argsList, .semicolon => some (.taskOpts, .skip)
  | .argsList, .quote => some (.argQuote, .skip)
  | .argsList, t => t.innerArg.map fun s => (.argsList, argAction s)
  | .argQuote, t => t.innerArg.map fun s => (.argEndQuote s, .skip)
  | .argEndQuote s, .quote => some (.argsList, argAction s)
  | .env, .envar s => some (.envEnd s, .skip)
  | .envEnd s, .semicolon => some (.taskOpts, envAction s)
  | .dir, .path s => some (.dirEnd s, .skip)
  | .dirEnd s, .semicolon => some (.taskOpts, dirAction s)
  | _, _ => none

/-- How a parse ends, with what it leaves behind. -/
inductive Outcome where
  | accept (st : ParseState)
  | syntaxError (st : ParseState)
  /-- An action accessed memory that is not there. -/
  | fault
  deriving DecidableEq

/-- `yyparse` from a position on. -/
def yyparse : Pos → ParseState → List Token → Outcome
  | pos, st, [] => if pos = .tasks then .accept st else .syntaxError st
  | pos, st, t :: ts =>
      match pos.next t with
      | none => .syntaxError st
      | some (pos', action) =>
          match action st with
          | none => .fault
          | some st' => yyparse pos' st' ts

/-- The positions and actions on the way, without running them. -/
def Pos.run : Pos → List Token → Option (Pos × Action)
  | pos, [] => some (pos, .skip)
  | pos, t :: ts => do
      let (pos', f) ← pos.next t
      let (pos'', g) ← pos'.run ts
      return (pos'', f.seq g)

/-- One step of a parse that is accepted. -/
theorem yyparse_cons_accept {pos : Pos} {st st₀ : ParseState} {t : Token} {ts : List Token} :
    yyparse pos st (t :: ts) = .accept st₀ ↔ ∃ pos' f st', pos.next t = some (pos', f) ∧
      f st = some st' ∧ yyparse pos' st' ts = .accept st₀ := by
  rw [yyparse]
  cases hn : pos.next t with
  | none => simp
  | some step =>
      obtain ⟨pos', f⟩ := step
      cases hf : f st with
      | none => simp [hf]
      | some st' => simp [hf]

theorem yyparse_accept {pos : Pos} {st st' : ParseState} {ts : List Token} :
    yyparse pos st ts = .accept st' ↔ ∃ f, pos.run ts = some (.tasks, f) ∧ f st = some st' := by
  induction ts generalizing pos st with
  | nil =>
      rw [yyparse, Pos.run]
      by_cases hp : pos = .tasks
      · subst hp
        simp [Action.skip]
      · simp [hp]
  | cons t ts ih =>
      rw [yyparse_cons_accept, Pos.run]
      constructor
      · rintro ⟨pos', f, st₁, hn, hf, h⟩
        obtain ⟨g, hg, hst⟩ := ih.mp h
        refine ⟨f.seq g, ?_, by rw [Action.seq, hf]; exact hst⟩
        simp only [hn, hg, Option.bind_eq_bind, Option.bind_some]
        rfl
      · rintro ⟨_, h, hst⟩
        obtain ⟨⟨pos', f⟩, hn, h⟩ := Option.bind_eq_some_iff.mp h
        obtain ⟨⟨pos'', g⟩, hg, h⟩ := Option.bind_eq_some_iff.mp h
        cases h
        obtain ⟨st₁, hf, hst⟩ := Option.bind_eq_some_iff.mp hst
        exact ⟨pos', f, st₁, hn, hf, ih.mpr ⟨g, hg, hst⟩⟩

theorem Pos.run_trans {pos p q : Pos} {ts us : List Token} {f g : Action}
    (h : pos.run ts = some (p, f)) (h' : p.run us = some (q, g)) :
    pos.run (ts ++ us) = some (q, f.seq g) := by
  induction ts generalizing pos f with
  | nil =>
      cases h
      exact h'
  | cons t ts ih =>
      obtain ⟨⟨pos', f₁⟩, hn, h⟩ := Option.bind_eq_some_iff.mp h
      obtain ⟨⟨p', f₂⟩, hrun, h⟩ := Option.bind_eq_some_iff.mp h
      cases h
      rw [List.cons_append, Pos.run, hn, Action.seq_assoc]
      simp only [Option.bind_eq_bind, Option.bind_some, ih hrun]
      rfl

theorem Pos.run_append {pos p : Pos} {ts us : List Token} {f : Action}
    (h : pos.run ts = some (p, f)) :
    pos.run (ts ++ us) = (p.run us).map fun q => (q.1, f.seq q.2) := by
  cases hus : p.run us with
  | some next => exact Pos.run_trans h hus
  | none =>
      induction ts generalizing pos f with
      | nil =>
          cases h
          exact hus
      | cons t ts ih =>
          obtain ⟨⟨pos', f₁⟩, hn, h⟩ := Option.bind_eq_some_iff.mp h
          obtain ⟨⟨p', f₂⟩, hrun, h⟩ := Option.bind_eq_some_iff.mp h
          cases h
          rw [List.cons_append, Pos.run, hn]
          simp only [Option.bind_eq_bind, Option.bind_some, ih hrun]
          rfl

theorem Pos.run_of_append {pos p q : Pos} {ts us : List Token} {f g : Action}
    (h : pos.run ts = some (p, f)) (hr : pos.run (ts ++ us) = some (q, g)) :
    ∃ g', p.run us = some (q, g') := by
  rw [Pos.run_append h] at hr
  obtain ⟨⟨q', g'⟩, hrun, heq⟩ := Option.map_eq_some_iff.mp hr
  cases heq
  exact ⟨g', hrun⟩

theorem Pos.run_one {pos p : Pos} {t : Token} {f : Action} (h : pos.next t = some (p, f)) :
    pos.run [t] = some (p, f) := by
  simp [Pos.run, h]

/-! ## What derives is parsed -/

theorem TaskName.run {ts : List Token} {s : Str} (h : TaskName ts s) :
    Pos.name.run ts = some (.nameEnd s, .skip) := by
  cases h <;> rfl

theorem Token.argsList_next {t : Token} {s : Str} (h : t.innerArg = some s) :
    Pos.argsList.next t = some (.argsList, argAction s) ∧
      Pos.argQuote.next t = some (.argEndQuote s, .skip) := by
  cases t <;> cases h <;> exact ⟨rfl, rfl⟩

theorem Arg.run {ts : List Token} {s : Str} (h : Arg ts s) :
    Pos.argsList.run ts = some (.argsList, argAction s) := by
  cases h with
  | plain ht => exact Pos.run_one (Token.argsList_next ht).1
  | quoted ht =>
      have hopen : Pos.argsList.run [.quote] = some (.argQuote, .skip) := rfl
      have hend : (Pos.argEndQuote s).run [.quote] = some (.argsList, argAction s) :=
        Pos.run_one rfl
      exact Pos.run_trans (Pos.run_trans hopen (Pos.run_one (Token.argsList_next ht).2)) hend

theorem ArgsList.run {ts : List Token} {f : Action} (h : ArgsList ts f) :
    Pos.argsList.run ts = some (.argsList, f) := by
  induction h with
  | nil => rfl
  | snoc _ harg ih => exact Pos.run_trans ih harg.run

theorem TaskOpt.run {ts : List Token} {f : Action} (h : TaskOpt ts f) :
    Pos.taskOpts.run ts = some (.taskOpts, f) := by
  cases h with
  | @name ts s hname =>
      have hkw : Pos.taskOpts.run [.tokenName] = some (.name, .skip) := rfl
      have hend : (Pos.nameEnd s).run [.semicolon] = some (.taskOpts, nameAction s) := rfl
      exact Pos.run_trans (Pos.run_trans hkw hname.run) hend
  | path s => rfl
  | @args ts f hargs =>
      have hkw : Pos.taskOpts.run [.tokenArgs] = some (.argsList, .skip) := rfl
      have hend : Pos.argsList.run [.semicolon] = some (.taskOpts, .skip) := rfl
      have := Pos.run_trans (Pos.run_trans hkw hargs.run) hend
      simpa using this
  | env s =>
      have hval : Pos.taskOpts.run [.tokenEnv, .envar s] = some (.envEnd s, .skip) := rfl
      exact Pos.run_trans hval (Pos.run_one rfl)
  | dir s => rfl

theorem TaskOpts.run {ts : List Token} {f : Action} (h : TaskOpts ts f) :
    Pos.taskOpts.run ts = some (.taskOpts, f) := by
  induction h with
  | nil => rfl
  | snoc _ hopt ih => exact Pos.run_trans ih hopt.run

theorem Tasks.run {ts : List Token} {f : Action} (h : Tasks ts f) :
    Pos.tasks.run ts = some (.tasks, f) := by
  induction h with
  | nil => rfl
  | snoc _ hblock ih =>
      refine Pos.run_trans ih ?_
      cases hblock with
      | block hopts =>
          have hopen : Pos.tasks.run [.tokenTask, .openBrace] = some (.taskOpts, .skip) := rfl
          have hend : Pos.taskOpts.run [.endBrace] = some (.tasks, taskAction) := Pos.run_one rfl
          exact Pos.run_trans (Pos.run_trans hopen hopts.run) hend

/-! ## What is parsed derives -/

/-- The tokens read up to a position, and the actions run on the way. -/
inductive Viable : Pos → List Token → Action → Prop
  | tasks {ts : List Token} {f : Action} : Tasks ts f → Viable .tasks ts f
  | task {ts : List Token} {f : Action} : Tasks ts f → Viable .task (ts ++ [.tokenTask]) f
  | taskOpts {ts us : List Token} {f g : Action} : Tasks ts f → TaskOpts us g →
      Viable .taskOpts (ts ++ .tokenTask :: .openBrace :: us) (f.seq g)
  | name {ts : List Token} {f : Action} : Viable .taskOpts ts f →
      Viable .name (ts ++ [.tokenName]) f
  | nameQuote {ts : List Token} {f : Action} : Viable .taskOpts ts f →
      Viable .nameQuote (ts ++ [.tokenName, .quote]) f
  | nameEndQuote {ts : List Token} {f : Action} {s : Str} : Viable .taskOpts ts f →
      Viable (.nameEndQuote s) (ts ++ [.tokenName, .quote, .alphaWord s]) f
  | nameEnd {ts us : List Token} {f : Action} {s : Str} : Viable .taskOpts ts f → TaskName us s →
      Viable (.nameEnd s) (ts ++ .tokenName :: us) f
  | path {ts : List Token} {f : Action} : Viable .taskOpts ts f →
      Viable .path (ts ++ [.tokenPath]) f
  | pathEnd {ts : List Token} {f : Action} {s : Str} : Viable .taskOpts ts f →
      Viable (.pathEnd s) (ts ++ [.tokenPath, .path s]) f
  | argsList {ts us : List Token} {f g : Action} : Viable .taskOpts ts f → ArgsList us g →
      Viable .argsList (ts ++ .tokenArgs :: us) (f.seq g)
  | argQuote {ts : List Token} {f : Action} : Viable .argsList ts f →
      Viable .argQuote (ts ++ [.quote]) f
  | argEndQuote {ts : List Token} {f : Action} {t : Token} {s : Str} : Viable .argsList ts f →
      t.innerArg = some s → Viable (.argEndQuote s) (ts ++ [.quote, t]) f
  | env {ts : List Token} {f : Action} : Viable .taskOpts ts f →
      Viable .env (ts ++ [.tokenEnv]) f
  | envEnd {ts : List Token} {f : Action} {s : Str} : Viable .taskOpts ts f →
      Viable (.envEnd s) (ts ++ [.tokenEnv, .envar s]) f
  | dir {ts : List Token} {f : Action} : Viable .taskOpts ts f →
      Viable .dir (ts ++ [.tokenDir]) f
  | dirEnd {ts : List Token} {f : Action} {s : Str} : Viable .taskOpts ts f →
      Viable (.dirEnd s) (ts ++ [.tokenDir, .path s]) f

/-- An option is complete. -/
theorem Viable.opt {ts us : List Token} {f g : Action} (h : Viable .taskOpts ts f)
    (hopt : TaskOpt us g) : Viable .taskOpts (ts ++ us) (f.seq g) := by
  cases h with
  | taskOpts hts hopts =>
      rw [List.append_assoc, Action.seq_assoc]
      exact .taskOpts hts (.snoc hopts hopt)

/-- An argument is complete. -/
theorem Viable.arg {ts us : List Token} {f : Action} {s : Str} (h : Viable .argsList ts f)
    (harg : Arg us s) : Viable .argsList (ts ++ us) (f.seq (argAction s)) := by
  cases h with
  | argsList hts hargs =>
      rw [List.append_assoc, Action.seq_assoc]
      exact .argsList hts (.snoc hargs harg)

theorem Viable.next {pos pos' : Pos} {ts : List Token} {f g : Action} {t : Token}
    (h : Viable pos ts f) (hn : pos.next t = some (pos', g)) :
    Viable pos' (ts ++ [t]) (f.seq g) := by
  cases h with
  | tasks hts =>
      cases t with
      | tokenTask =>
          cases hn
          rw [Action.seq_skip]
          exact .task hts
      | _ => cases hn
  | task hts =>
      cases t with
      | openBrace =>
          cases hn
          simpa using Viable.taskOpts hts .nil
      | _ => cases hn
  | taskOpts hts hopts =>
      have h := Viable.taskOpts hts hopts
      cases t with
      | endBrace =>
          cases hn
          have := Viable.tasks (.snoc hts (.block hopts))
          simpa [Action.seq_assoc] using this
      | tokenName =>
          cases hn
          rw [Action.seq_skip]
          exact .name h
      | tokenPath =>
          cases hn
          rw [Action.seq_skip]
          exact .path h
      | tokenArgs =>
          cases hn
          exact .argsList h .nil
      | tokenEnv =>
          cases hn
          rw [Action.seq_skip]
          exact .env h
      | tokenDir =>
          cases hn
          rw [Action.seq_skip]
          exact .dir h
      | _ => cases hn
  | name h =>
      cases t with
      | string s =>
          cases hn
          simpa using h.nameEnd (.string s)
      | alphaWord s =>
          cases hn
          simpa using h.nameEnd (.alphaWord s)
      | quote =>
          cases hn
          simpa using h.nameQuote
      | _ => cases hn
  | nameQuote h =>
      cases t with
      | alphaWord s =>
          cases hn
          simpa using h.nameEndQuote
      | _ => cases hn
  | nameEndQuote h =>
      cases t with
      | quote =>
          cases hn
          simpa using h.nameEnd (.quoted _)
      | _ => cases hn
  | nameEnd h hname =>
      cases t with
      | semicolon =>
          cases hn
          simpa using h.opt (.name hname)
      | _ => cases hn
  | path h =>
      cases t with
      | path s =>
          cases hn
          simpa using h.pathEnd
      | _ => cases hn
  | pathEnd h =>
      cases t with
      | semicolon =>
          cases hn
          simpa using h.opt (.path _)
      | _ => cases hn
  | argsList h hargs =>
      have h' := Viable.argsList h hargs
      cases t with
      | semicolon =>
          cases hn
          simpa using h.opt (.args hargs)
      | quote =>
          cases hn
          rw [Action.seq_skip]
          exact .argQuote h'
      | string s | argKey s | alphaWord s | alnumWord s | number s =>
          cases hn
          exact h'.arg (.plain rfl)
      | _ => cases hn
  | argQuote h =>
      cases t with
      | string s | argKey s | alphaWord s | alnumWord s | number s =>
          cases hn
          simpa using h.argEndQuote rfl
      | _ => cases hn
  | argEndQuote h ht =>
      cases t with
      | quote =>
          cases hn
          simpa using h.arg (.quoted ht)
      | _ => cases hn
  | env h =>
      cases t with
      | envar s =>
          cases hn
          simpa using h.envEnd
      | _ => cases hn
  | envEnd h =>
      cases t with
      | semicolon =>
          cases hn
          simpa using h.opt (.env _)
      | _ => cases hn
  | dir h =>
      cases t with
      | path s =>
          cases hn
          simpa using h.dirEnd
      | _ => cases hn
  | dirEnd h =>
      cases t with
      | semicolon =>
          cases hn
          simpa using h.opt (.dir _)
      | _ => cases hn

theorem Viable.run {pos pos' : Pos} {ts us : List Token} {f g : Action} (h : Viable pos ts f)
    (hrun : pos.run us = some (pos', g)) : Viable pos' (ts ++ us) (f.seq g) := by
  induction us generalizing pos ts f g with
  | nil =>
      cases hrun
      simpa using h
  | cons t us ih =>
      obtain ⟨⟨p, f₁⟩, hn, hbind⟩ := Option.bind_eq_some_iff.mp hrun
      obtain ⟨⟨q, f₂⟩, hrest, heq⟩ := Option.bind_eq_some_iff.mp hbind
      cases heq
      have := ih (h.next hn) hrest
      rwa [Action.seq_assoc, List.append_assoc] at this

/-- The parser accepts what derives from `tasks`, and its actions are those of
the derivation. -/
theorem parser_iff {st st' : ParseState} {ts : List Token} :
    yyparse .tasks st ts = .accept st' ↔ ∃ f, Tasks ts f ∧ f st = some st' := by
  rw [yyparse_accept]
  refine exists_congr fun f => and_congr_left fun _ => ⟨fun h => ?_, fun h => h.run⟩
  cases (Viable.tasks .nil).run h with
  | tasks hts => exact hts

end Bitzer
