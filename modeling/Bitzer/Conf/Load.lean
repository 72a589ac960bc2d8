import Bitzer.Conf.Gram

/-!
# Loading a configuration file

`conf_load` and `conf_mmap`: the file is mapped, scanned and parsed. A file of
length 0 cannot be mapped, so that it is refused before the parser sees it.
-/

namespace Bitzer

/-- Whether the calls of `conf_load` and `conf_mmap` succeed. -/
structure ConfCalls where
  yylexInit : Bool
  openFile : Bool
  fstat : Bool
  mmap : Bool

/-- Nothing fails but what cannot succeed. -/
def ConfCalls.Succeed (k : ConfCalls) : Prop :=
  k.yylexInit = true ∧ k.openFile = true ∧ k.fstat = true ∧ k.mmap = true

/-- `mmap` of the whole file: `EINVAL` where it is empty. -/
def ConfCalls.mmapFile (k : ConfCalls) (file : Str) : Option Str :=
  if file.length ≠ 0 ∧ k.mmap = true then some file else none

/-- `conf_mmap`, `NULL` where a call fails. -/
def ConfCalls.confMmap (k : ConfCalls) (file : Str) : Option Str :=
  if k.openFile then
    if k.fstat then k.mmapFile file else none
  else none

/-- What `conf_load` makes of the end of the parse: whether it returns `OK`, and
the state it leaves. `none` is a fault. -/
def Outcome.loaded : Outcome → Option (Bool × ParseState)
  | .accept st => some (true, st)
  | .syntaxError st => some (false, st)
  | .fault => none

/-- `conf_load` of a file with the content `file`. -/
def confLoad (k : ConfCalls) (file : Str) (st : ParseState) : Option (Bool × ParseState) :=
  if k.yylexInit then
    match k.confMmap file with
    | none => some (false, st)
    | some confstr => (yyparse .tasks st (yylex confstr)).loaded
  else some (false, st)

/-- What a caller of `conf_load` sees: its result and the tasks list. -/
def loadResult (r : Option (Bool × ParseState)) : Option (Bool × List Task) :=
  r.map fun r => (r.1, r.2.tasksList)

/-- A process that has loaded nothing, and a `conf_t` without tasks. -/
def freshState : ParseState := ⟨[], none⟩

section
variable {k : ConfCalls} {c c₁ c₂ : Str} {st : ParseState}

theorem confLoad_nil (hk : k.Succeed) : confLoad k [] st = some (false, st) := by
  obtain ⟨hlex, hopen, hstat, hmap⟩ := hk
  simp [confLoad, ConfCalls.confMmap, ConfCalls.mmapFile, hlex, hopen, hstat]

theorem confLoad_cons (hk : k.Succeed) (hc : c ≠ []) :
    confLoad k c st = (yyparse .tasks st (yylex c)).loaded := by
  obtain ⟨hlex, hopen, hstat, hmap⟩ := hk
  simp [confLoad, ConfCalls.confMmap, ConfCalls.mmapFile, hlex, hopen, hstat, hmap, hc]

/-- The two files are loaded alike. -/
def LoadedAlike (k : ConfCalls) (c₁ c₂ : Str) : Prop :=
  loadResult (confLoad k c₁ freshState) = loadResult (confLoad k c₂ freshState)

/-- An empty file has no tokens, but is refused. -/
theorem not_loadedAlike_nil (hk : k.Succeed) (hc : c ≠ []) (htok : yylex c = []) :
    loadResult (confLoad k [] freshState) ≠ loadResult (confLoad k c freshState) := by
  rw [confLoad_nil hk, confLoad_cons hk hc, htok]
  simp [loadResult, yyparse, Outcome.loaded]

/-- **Tokens decide.** Two files with the same tokens are loaded alike if and
only if both are empty or neither is. -/
theorem loaded_alike_iff (hk : k.Succeed) (htok : yylex c₁ = yylex c₂) :
    LoadedAlike k c₁ c₂ ↔ (c₁ = [] ↔ c₂ = []) := by
  unfold LoadedAlike
  by_cases h₁ : c₁ = []
  · subst h₁
    by_cases h₂ : c₂ = []
    · subst h₂
      exact iff_of_true rfl Iff.rfl
    · exact iff_of_false (not_loadedAlike_nil hk h₂ htok.symm) fun h => h₂ (h.mp rfl)
  · by_cases h₂ : c₂ = []
    · subst h₂
      exact iff_of_false (fun h => not_loadedAlike_nil hk h₁ htok h.symm) fun h => h₁ (h.mpr rfl)
    · rw [confLoad_cons hk h₁, confLoad_cons hk h₂, htok]
      exact iff_of_true rfl (iff_of_false h₁ h₂)

/-- A newline, and a blank before it. -/
theorem loaded_alike_iff_blank :
    LoadedAlike ⟨true, true, true, true⟩ [10] [32, 10] ↔
      (([10] : Str) = [] ↔ ([32, 10] : Str) = []) :=
  loaded_alike_iff ⟨rfl, rfl, rfl, rfl⟩ (by decide +kernel)

/-- The empty file and a newline. -/
theorem not_loadedAlike :
    ¬∀ k : ConfCalls, k.Succeed → ∀ c₁ c₂, yylex c₁ = yylex c₂ → LoadedAlike k c₁ c₂ := by
  intro h
  have hk : ConfCalls.Succeed ⟨true, true, true, true⟩ := ⟨rfl, rfl, rfl, rfl⟩
  have htok : yylex [] = yylex [10] := by decide +kernel
  exact not_loadedAlike_nil hk (List.cons_ne_nil 10 []) htok.symm (h _ hk [] [10] htok)

end

end Bitzer
