import Bitzer.Conf.Load

/-!
# Where a syntax error is reported

The parse with the locations that bison and flex hand over. `yylex` gets a
pointer to `yylloc`, but no rule of `conf_scan.l` and no `YY_USER_ACTION`
assigns to it, so that `yyerror` finds what bison has put there at the start.
-/

namespace Bitzer

/-- `YYLTYPE`. -/
structure Yyltype where
  firstLine : Int
  firstColumn : Int
  lastLine : Int
  lastColumn : Int

/-- `yylloc` at the start of `yyparse`. -/
def yylocDefault : Yyltype := ⟨1, 1, 1, 1⟩

/-- `*yylloc` after the action of the rule that matched. -/
def Lexeme.locate (_ : Lexeme) (yylloc : Yyltype) : Yyltype := yylloc

/-- The line number in the message of `yyerror`. -/
def yyerror (locp : Yyltype) : Int := locp.firstLine

/-- How a parse ends, with the location that `yyerror` gets. -/
inductive Located where
  | accept (st : ParseState)
  | syntaxError (st : ParseState) (locp : Yyltype)
  | fault

/-- The end of a parse, with a location. -/
def Outcome.locate (locp : Yyltype) : Outcome → Located
  | .accept st => .accept st
  | .syntaxError st => .syntaxError st locp
  | .fault => .fault

/-- `yyparse` from a position on, with `yylloc`; a lexeme without a token is one
that `yylex` skips. -/
def yyparseAt : Pos → ParseState → Yyltype → List Lexeme → Located
  | pos, st, yylloc, [] => if pos = .tasks then .accept st else .syntaxError st yylloc
  | pos, st, yylloc, x :: xs =>
      match x.token with
      | none => yyparseAt pos st (x.locate yylloc) xs
      | some t =>
          match pos.next t with
          | none => .syntaxError st (x.locate yylloc)
          | some (pos', action) =>
              match action st with
              | none => .fault
              | some st' => yyparseAt pos' st' (x.locate yylloc) xs

/-! ## Where the error is -/

/-- The text in front of the token that causes the error; where the text ends too
soon, the text in front of its last byte. `seen` has been read already. -/
def Pos.beforeError : Pos → Str → List Lexeme → Option Str
  | pos, seen, [] => if pos = .tasks then none else some seen.dropLast
  | pos, seen, x :: xs =>
      match x.token with
      | none => pos.beforeError (seen ++ x.text) xs
      | some t =>
          match pos.next t with
          | none => some seen
          | some (pos', _) => pos'.beforeError (seen ++ x.text) xs

/-- The text in front of the error. -/
def beforeError (s : Str) : Option Str := Pos.tasks.beforeError [] (lexemes s)

/-- The number of the line that begins or goes on behind the text. -/
def lineAfter (u : Str) : Nat := 1 + u.count 10

/-- The line that `yyerror` reports is the one with the error. -/
def ReportsErrorLine (st : ParseState) (s : Str) : Prop :=
  ∃ st' locp u, yyparseAt .tasks st yylocDefault (lexemes s) = .syntaxError st' locp ∧
    beforeError s = some u ∧ yyerror locp = lineAfter u

section
variable {pos : Pos} {st st' : ParseState} {yylloc : Yyltype} {seen s : Str} {xs : List Lexeme}

/-- The locations have no part in the parse, and `yyerror` gets the first one. -/
theorem yyparseAt_eq :
    yyparseAt pos st yylloc xs = (yyparse pos st (xs.filterMap Lexeme.token)).locate yylloc := by
  induction xs generalizing pos st with
  | nil =>
      rw [yyparseAt, List.filterMap_nil, yyparse]
      split <;> rfl
  | cons x xs ih =>
      rw [yyparseAt]
      cases ht : x.token with
      | none =>
          rw [List.filterMap_cons_none ht]
          exact ih
      | some t =>
          rw [List.filterMap_cons_some ht, yyparse]
          cases hn : pos.next t with
          | none => simp only [hn]; rfl
          | some step =>
              obtain ⟨pos', f⟩ := step
              cases hf : f st with
              | none => simp only [hn, hf]; rfl
              | some st₁ =>
                  simp only [hn, hf]
                  exact ih

/-- A syntax error is somewhere. -/
theorem beforeError_isSome (h : yyparse pos st (xs.filterMap Lexeme.token) = .syntaxError st') :
    ∃ u, pos.beforeError seen xs = some u := by
  induction xs generalizing pos st seen with
  | nil =>
      rw [List.filterMap_nil, yyparse] at h
      rw [Pos.beforeError]
      split at h
      · cases h
      · rw [if_neg ‹_›]
        exact ⟨_, rfl⟩
  | cons x xs ih =>
      rw [Pos.beforeError]
      cases ht : x.token with
      | none =>
          rw [List.filterMap_cons_none ht] at h
          exact ih h
      | some t =>
          rw [List.filterMap_cons_some ht, yyparse] at h
          cases hn : pos.next t with
          | none =>
              simp only [hn]
              exact ⟨seen, rfl⟩
          | some step =>
              obtain ⟨pos', f⟩ := step
              simp only [hn] at h ⊢
              cases hf : f st with
              | none =>
                  rw [hf] at h
                  cases h
              | some st₁ =>
                  rw [hf] at h
                  exact ih h

/-- **Locations.** The line of a syntax error is reported right if and only if no
newline stands in front of the token that causes it, or in front of the last
byte of a text that ends too soon. -/
theorem reports_line_iff (h : yyparse .tasks st (yylex s) = .syntaxError st') :
    ReportsErrorLine st s ↔ ∀ u, beforeError s = some u → 10 ∉ u := by
  have hat : yyparseAt .tasks st yylocDefault (lexemes s) = .syntaxError st' yylocDefault := by
    rw [yyparseAt_eq]
    exact congrArg (Outcome.locate yylocDefault) h
  obtain ⟨u, hu⟩ : ∃ u, beforeError s = some u := beforeError_isSome h
  have hline : ∀ v, yyerror yylocDefault = lineAfter v ↔ 10 ∉ v := by
    intro v
    rw [← List.count_eq_zero]
    simp only [yyerror, yylocDefault, lineAfter]
    omega
  constructor
  · rintro ⟨st₁, locp, v, hparse, hv, heq⟩ w hw
    rw [hat] at hparse
    cases hparse
    rw [hv] at hw
    cases hw
    exact (hline v).mp heq
  · intro hno
    exact ⟨st', yylocDefault, u, hat, hu, (hline u).mpr (hno u hu)⟩

/-- `task;` -/
theorem reports_line_iff_first :
    ReportsErrorLine freshState [116, 97, 115, 107, 59] ↔
      ∀ u, beforeError [116, 97, 115, 107, 59] = some u → 10 ∉ u := by
  have htok : yylex [116, 97, 115, 107, 59] = [.tokenTask, .semicolon] := by decide +kernel
  have h : yyparse .tasks freshState (yylex [116, 97, 115, 107, 59]) = .syntaxError freshState := by
    rw [htok]
    rfl
  exact reports_line_iff h

/-- `task`, a newline and `;`: the error is on the second line. -/
theorem not_reportsErrorLine :
    ¬∀ st s st', yyparse .tasks st (yylex s) = .syntaxError st' → ReportsErrorLine st s := by
  intro h
  have htok : yylex [116, 97, 115, 107, 10, 59] = [.tokenTask, .semicolon] := by decide +kernel
  have herr : yyparse .tasks freshState (yylex [116, 97, 115, 107, 10, 59]) =
      .syntaxError freshState := by
    rw [htok]
    rfl
  have hbefore : beforeError [116, 97, 115, 107, 10, 59] = some [116, 97, 115, 107, 10] := by
    decide +kernel
  obtain ⟨st, locp, u, hparse, hu, heq⟩ := h _ _ _ herr
  rw [yyparseAt_eq] at hparse
  cases (congrArg (Outcome.locate yylocDefault) herr).symm.trans hparse
  cases hbefore.symm.trans hu
  exact absurd heq (by decide)

end

end Bitzer
