import Mathlib.Algebra.Group.Int.Defs
import Mathlib.Data.List.TakeWhile
import Bitzer.Conf.Scan
import Bitzer.Lib.Getopt
import Bitzer.Main.Instance

/-!
# The command line

`bz_set_default_instance`, `bz_get_options` and the part of `main` before
`bz_init_instance`. The loop takes what `getopt_long` returns until it returns -1;
`Settings.given` says what is left of the options of a whole command line.
-/

namespace Bitzer

open Lib

/-- `BZ_LOG_DEFAULT`. -/
def bzLogDefault : Int := 6

/-- What the build has configured. -/
structure Build where
  installPrefix : Str
  logPath : Str := bytes "log/bitzer.log".toList
  confPath : Str := bytes "conf/bitzer.conf".toList
  pidPath : Str := bytes "log/bitzer.pid".toList
  version : Str := bytes "0.0.1".toList
  installPrefix_ne : installPrefix ≠ []

/-- What the options are read with: `access` with `X_OK`, the reason why it fails,
and whether `POSIXLY_CORRECT` is set. -/
structure OptionEnv where
  access : Str → Bool
  strerror : Str → Str
  posix : Bool
  access_nil : access [] = false

/-- The members of `struct bitzer_s` that options set, and the flags of `main.c`. -/
@[ext] structure Settings where
  prefixDir : Str
  logLevel : Int
  path : Member → Str
  showHelp : Bool
  showVersion : Bool
  testConf : Bool
  daemonize : Bool

/-- `bz_set_default_instance`; the flags are static. -/
def bzSetDefaultInstance (B : Build) : Settings where
  prefixDir := B.installPrefix
  logLevel := bzLogDefault
  path
    | .logFile => B.logPath
    | .confFile => B.confPath
    | .pidFile => B.pidPath
  showHelp := false
  showVersion := false
  testConf := false
  daemonize := false

/-- `long_options`. -/
def longOptions : List LongOption := [
  ⟨bytes "help".toList, false, 'h'.toUInt8⟩,
  ⟨bytes "version".toList, false, 'v'.toUInt8⟩,
  ⟨bytes "test-conf".toList, false, 't'.toUInt8⟩,
  ⟨bytes "not-daemonize".toList, false, 'D'.toUInt8⟩,
  ⟨bytes "prefix".toList, true, 'p'.toUInt8⟩,
  ⟨bytes "verbose".toList, true, 'l'.toUInt8⟩,
  ⟨bytes "conf-file".toList, true, 'c'.toUInt8⟩,
  ⟨bytes "log-file".toList, true, 'L'.toUInt8⟩,
  ⟨bytes "pid-file".toList, true, 'P'.toUInt8⟩]

def shortOptions : Str := bytes "hvtDp:l:c:L:P:".toList

/-- How `getopt_long` finds a letter in `short_options`. -/
def shortOption (c : UInt8) : Option Bool :=
  if c = ':'.toUInt8 ∨ c = ';'.toUInt8 then none
  else
    match shortOptions.dropWhile (· ≠ c) with
    | [] => none
    | _ :: rest => some (rest.head? = some ':'.toUInt8)

def options (posix : Bool) : Getopt where
  short := shortOption
  long := longOptions
  posix := posix
  dash := by decide
  names := by decide
  vals := by decide

/-! ## `atoi` -/

/-- `isspace`. -/
def isSpace (c : UInt8) : Bool := c == 32 || (9 ≤ c && c ≤ 13)

def digits (s : Str) : Nat := (s.takeWhile isDigit).foldl (fun n c => 10 * n + (c.toNat - 48)) 0

/-- `strtol` in base 10, with 64 bits. -/
def strtol (s : Str) : Int :=
  match s.dropWhile isSpace with
  | 45 :: s => max (-2 ^ 63) (-digits s)
  | 43 :: s => min (2 ^ 63 - 1) (digits s)
  | s => min (2 ^ 63 - 1) (digits s)

/-- `strtol`, cut to an `int`. -/
@[irreducible] def atoi (s : Str) : Int := (strtol s).bmod (2 ^ 32)

/-! ## The loop -/

/-- Where `optopt` is `c`: the text for an option without its argument, or for none. -/
def badOption (optopt : UInt8) : Str :=
  let requires (what : List Char) : Str :=
    bytes "bitzer: option -".toList ++ optopt :: bytes (" requires a ".toList ++ what)
  match Char.ofUInt8 optopt with
  | 'p' => requires "directory name".toList
  | 'c' => requires "file name".toList
  | 'L' => requires "file name".toList
  | 'P' => requires "file name".toList
  | 'l' => requires "number".toList
  | _ => bytes "bitzer: invalid option '-".toList ++ [optopt, 39]

/-- The `switch` in `bz_get_options`. An error is what is printed. -/
def bzOption (E : OptionEnv) (bz : Settings) : Got → Except Str Settings
  | .bad optopt => .error (badOption optopt)
  | .opt c optarg =>
      match Char.ofUInt8 c, optarg with
      | 'h', _ => .ok { bz with showVersion := true, showHelp := true }
      | 'v', _ => .ok { bz with showVersion := true }
      | 't', _ => .ok { bz with testConf := true }
      | 'D', _ => .ok { bz with daemonize := false }
      | 'p', some dir =>
          if E.access dir then .ok { bz with prefixDir := dir }
          else .error (bytes "access prefix directory (".toList ++ dir ++
            bytes ") failed: ".toList ++ E.strerror dir)
      | 'l', some arg =>
          let value := atoi arg
          if value < 0 then .error (bytes "bitzer: option -l requires a number".toList)
          else .ok { bz with logLevel := value }
      | 'c', some file => .ok { bz with path := Function.update bz.path .confFile file }
      | 'L', some file => .ok { bz with path := Function.update bz.path .logFile file }
      | 'P', some file => .ok { bz with path := Function.update bz.path .pidFile file }
      -- `optopt` is still what it is before the first call
      | _, _ => .error (badOption 63)

/-- The loop of `bz_get_options`. -/
def bzOptions (E : OptionEnv) (cs : Str) (ws : List Str) (bz : Settings) : Except Str Settings :=
  match _h : (options E.posix).next cs ws with
  | none => .ok bz
  | some (got, cs', ws') =>
      match bzOption E bz got with
      | .error e => .error e
      | .ok bz => bzOptions E cs' ws' bz
termination_by Getopt.left cs ws
decreasing_by exact Getopt.next_left ‹_›

/-- `bz_get_options`. -/
def bzGetOptions (E : OptionEnv) (argv : List Str) (bz : Settings) : Except Str Settings :=
  bzOptions E [] argv.tail { bz with daemonize := true }

/-- What `main` has come to before `bz_init_instance`. -/
inductive Begun where
  /-- It prints the text and the usage, and exits with 1. -/
  | usage (text : Str)
  /-- It prints the version, and the usage where `help` is set, and exits with 0. -/
  | version (text : Str) (help : Bool)
  | init (bz : Settings)

/-- `main` before `bz_init_instance`. -/
def mainBegin (E : OptionEnv) (B : Build) (argv : List Str) : Begun :=
  match bzGetOptions E argv (bzSetDefaultInstance B) with
  | .error e => .usage e
  | .ok bz =>
      if bz.showVersion then .version (bytes "bitzer: ".toList ++ B.version) bz.showHelp
      else .init bz

/-! ## What the options leave -/

/-- The arguments of the options of a letter. -/
def args (gs : List (UInt8 × Option Str)) (c : Char) : List Str :=
  gs.filterMap fun g => if Char.ofUInt8 g.1 = c then g.2 else none

def given? (gs : List (UInt8 × Option Str)) (c : Char) : Bool :=
  gs.any fun g => Char.ofUInt8 g.1 = c

/-- The letter of the option that sets the member. -/
def Member.letter : Member → Char
  | .logFile => 'L'
  | .confFile => 'c'
  | .pidFile => 'P'

/-- The settings after a command line that spells `gs`: of each letter the last
option counts, wherever it stands among the others. -/
def Settings.given (bz : Settings) (gs : List (UInt8 × Option Str)) : Settings where
  prefixDir := (args gs 'p').getLast?.getD bz.prefixDir
  logLevel := ((args gs 'l').getLast?.map atoi).getD bz.logLevel
  path m := (args gs m.letter).getLast?.getD (bz.path m)
  showHelp := bz.showHelp || given? gs 'h'
  showVersion := bz.showVersion || given? gs 'h' || given? gs 'v'
  testConf := bz.testConf || given? gs 't'
  daemonize := bz.daemonize && !given? gs 'D'

/-- Each directory can be searched, and no level is negative. -/
structure Permitted (E : OptionEnv) (gs : List (UInt8 × Option Str)) : Prop where
  access : ∀ dir ∈ args gs 'p', E.access dir = true
  level : ∀ arg ∈ args gs 'l', 0 ≤ atoi arg

/-- The letter is one of the program's, and has an argument if it takes one. -/
def Known (g : UInt8 × Option Str) : Prop := shortOption g.1 = some g.2.isSome

section
variable {m : Member} {E : OptionEnv} {bz bz' : Settings} {g : UInt8 × Option Str}
  {gs gs' : List (UInt8 × Option Str)} {cs : Str} {ws ws' : List Str}

theorem Member.letter_ne : 'p' ≠ m.letter ∧ 'l' ≠ m.letter := by cases m <;> decide

/-- No two members have one letter. -/
theorem update_letter (path : Member → Str) (m : Member) (v : Str) :
    Function.update path m v = fun m' => if m.letter = m'.letter then v else path m' := by
  funext m'
  cases m <;> cases m' <;> rfl

theorem args_append (c : Char) : args (gs ++ gs') c = args gs c ++ args gs' c :=
  List.filterMap_append ..

theorem args_single (g : UInt8 × Option Str) (c : Char) :
    args [g] c = if Char.ofUInt8 g.1 = c then g.2.toList else [] := by
  unfold args
  split
  · rename_i h
    rw [List.filterMap_cons, if_pos h]
    cases g.2 <;> rfl
  · rename_i h
    rw [List.filterMap_cons, if_neg h]
    rfl

theorem given?_append (c : Char) : given? (gs ++ gs') c = (given? gs c || given? gs' c) :=
  List.any_append

theorem given?_single (g : UInt8 × Option Str) (c : Char) :
    given? [g] c = decide (Char.ofUInt8 g.1 = c) := Bool.or_false _

/-- One command line behind the other. -/
theorem Settings.given_append : bz.given (gs ++ gs') = (bz.given gs).given gs' := by
  have hlast : ∀ (c : Char) (s : Str), (args (gs ++ gs') c).getLast?.getD s =
      (args gs' c).getLast?.getD ((args gs c).getLast?.getD s) := by
    intro c s
    rw [args_append, List.getLast?_append, Option.getD_or]
  have hlevel : ((args (gs ++ gs') 'l').getLast?.map atoi).getD bz.logLevel =
      ((args gs' 'l').getLast?.map atoi).getD
        (((args gs 'l').getLast?.map atoi).getD bz.logLevel) := by
    rw [args_append, List.getLast?_append, Option.map_or, Option.getD_or]
  unfold Settings.given
  simp only [Settings.mk.injEq, given?_append]
  refine ⟨hlast 'p' _, hlevel, funext fun m => hlast m.letter _, (Bool.or_assoc ..).symm, ?_,
    (Bool.or_assoc ..).symm, ?_⟩
  · ac_rfl
  · rw [Bool.not_or, Bool.and_assoc]

theorem permitted_append : Permitted E (gs ++ gs') ↔ Permitted E gs ∧ Permitted E gs' := by
  constructor
  · intro h
    exact ⟨⟨fun dir hd => h.access dir (args_append _ ▸ List.mem_append_left _ hd),
        fun arg ha => h.level arg (args_append _ ▸ List.mem_append_left _ ha)⟩,
      ⟨fun dir hd => h.access dir (args_append _ ▸ List.mem_append_right _ hd),
        fun arg ha => h.level arg (args_append _ ▸ List.mem_append_right _ ha)⟩⟩
  · rintro ⟨h, h'⟩
    constructor
    · intro dir hd
      rw [args_append] at hd
      exact (List.mem_append.mp hd).elim (h.access dir) (h'.access dir)
    · intro arg ha
      rw [args_append] at ha
      exact (List.mem_append.mp ha).elim (h.level arg) (h'.level arg)

/-- The letters of the program. -/
theorem known_cases (h : Known g) : (g.2 = none ∧ Char.ofUInt8 g.1 ∈ ['h', 'v', 't', 'D']) ∨
    ∃ arg, g.2 = some arg ∧ Char.ofUInt8 g.1 ∈ ['p', 'l', 'c', 'L', 'P'] := by
  obtain ⟨c, arg⟩ := g
  have h : shortOption c = some arg.isSome := h
  have hmem : c ∈ shortOptions := by
    by_contra hc
    have hdrop : shortOptions.dropWhile (· ≠ c) = [] :=
      List.dropWhile_eq_nil_iff.mpr fun d hd => decide_eq_true fun heq => hc (heq ▸ hd)
    unfold shortOption at h
    rw [hdrop] at h
    split at h <;> cases h
  have hall : shortOptions.all (fun c => (shortOption c).all fun takesArg =>
      (if takesArg then ['p', 'l', 'c', 'L', 'P'] else ['h', 'v', 't', 'D']).contains
        (Char.ofUInt8 c)) = true := by decide
  have hc := List.all_eq_true.mp hall c hmem
  rw [h, Option.all_some, List.contains_iff_mem] at hc
  cases arg with
  | none => exact .inl ⟨rfl, hc⟩
  | some v => exact .inr ⟨v, rfl, hc⟩

theorem bzOption_iff (bz : Settings) (hg : Known g) : bzOption E bz (.opt g.1 g.2) = .ok bz' ↔
    Permitted E [g] ∧ bz' = bz.given [g] := by
  obtain ⟨c, arg⟩ := g
  have hperm : Permitted E [(c, arg)] ↔ (Char.ofUInt8 c = 'p' → ∀ dir ∈ arg, E.access dir = true) ∧
      (Char.ofUInt8 c = 'l' → ∀ n ∈ arg, 0 ≤ atoi n) := by
    constructor
    · intro h
      refine ⟨fun hc dir hd => h.access dir ?_, fun hc n hn => h.level n ?_⟩
      · rw [args_single, if_pos hc]
        exact Option.mem_toList.mpr hd
      · rw [args_single, if_pos hc]
        exact Option.mem_toList.mpr hn
    · rintro ⟨hp, hl⟩
      constructor
      · intro dir hd
        rw [args_single] at hd
        split at hd
        · exact hp ‹_› dir (Option.mem_toList.mp hd)
        · cases hd
      · intro n hn
        rw [args_single] at hn
        split at hn
        · exact hl ‹_› n (Option.mem_toList.mp hn)
        · cases hn
  rw [hperm]
  have hpath : ∀ m : Member, Char.ofUInt8 c ≠ m.letter ∨ arg = none →
      (args [(c, arg)] m.letter).getLast?.getD (bz.path m) = bz.path m := by
    intro m hm
    rw [args_single]
    rcases hm with hm | hm
    · rw [if_neg hm]
      rfl
    · rw [show (c, arg).2 = none from hm, Option.toList_none, ite_self]
      rfl
  unfold bzOption Settings.given
  obtain ⟨rfl, hc⟩ | ⟨v, rfl, hc⟩ := known_cases hg
  · -- a flag
    simp only [hpath _ (.inr rfl)]
    simp only [args_single, given?_single]
    simp only [List.mem_cons, List.not_mem_nil, or_false] at hc
    generalize Char.ofUInt8 c = d at hc
    rcases hc with rfl | rfl | rfl | rfl
    all_goals
      simp
      exact eq_comm
  · simp only [List.mem_cons, List.not_mem_nil, or_false] at hc
    clear hperm hg
    have hmember : ∀ m : Member, (args [(c, some v)] m.letter).getLast?.getD (bz.path m) =
        if Char.ofUInt8 c = m.letter then v else bz.path m := by
      intro m
      rw [args_single]
      split <;> rfl
    simp only [hmember]
    simp only [args_single, given?_single]
    generalize Char.ofUInt8 c = d at hc
    rcases hc with rfl | rfl | rfl | rfl | rfl
    · by_cases hacc : E.access v = true
      · simp [hacc, Member.letter_ne]
        exact eq_comm
      · simp [hacc]
    · by_cases hneg : atoi v < 0
      · simp [hneg]
      · simp [hneg, Int.not_lt.mp hneg, Member.letter_ne]
        exact eq_comm
    all_goals
      simp [update_letter, Member.letter]
      exact eq_comm

theorem Settings.given_cons : bz.given (g :: gs) = (bz.given [g]).given gs := by
  rw [← Settings.given_append]
  rfl

theorem permitted_cons : Permitted E (g :: gs) ↔ Permitted E [g] ∧ Permitted E gs := by
  rw [← permitted_append]
  rfl

theorem known_of_valid {posix : Bool} (h : (options posix).Valid g) : Known g := by
  have hlong : ∀ o ∈ longOptions, shortOption o.val = some o.hasArg := by decide
  rcases h with h | ⟨o, ho, hval, harg⟩
  · exact h
  · rw [Known, ← hval, hlong o ho, harg]

theorem Settings.given_nil : bz.given [] = bz := by
  simp [Settings.given, args, given?]

theorem bzOptions_iff : bzOptions E cs ws bz = .ok bz' ↔
    ∃ gs, (options E.posix).Gives cs ws gs ∧ Permitted E gs ∧ bz' = bz.given gs := by
  fun_induction bzOptions E cs ws bz with
  | case1 cs ws bz hn =>
      constructor
      · intro h
        cases h
        exact ⟨[], .done hn, ⟨nofun, nofun⟩, Settings.given_nil.symm⟩
      · rintro ⟨gs, hgives, -, rfl⟩
        cases hgives with
        | done => rw [Settings.given_nil]
        | call h => rw [hn] at h; cases h
  | case2 cs ws bz got cs' ws' hn e he =>
      refine ⟨nofun, ?_⟩
      rintro ⟨gs, hgives, hperm, rfl⟩
      have hvalid := hgives.valid
      cases hgives with
      | done h => rw [hn] at h; cases h
      | @call _ _ _ _ c arg gs h hrest =>
          rw [hn] at h
          cases h
          have hg := known_of_valid (hvalid _ List.mem_cons_self)
          have hok := (bzOption_iff bz hg).mpr ⟨(permitted_cons.mp hperm).1, rfl⟩
          rw [he] at hok
          cases hok
  | case3 cs ws bz got cs' ws' hn bz₁ hok ih =>
      rw [ih]
      constructor
      · rintro ⟨gs, hgives, hperm, rfl⟩
        cases got with
        | bad optopt => cases hok
        | opt c arg =>
            have hcall : (options E.posix).Gives cs ws ((c, arg) :: gs) := .call hn hgives
            have hg := known_of_valid (hcall.valid _ List.mem_cons_self)
            obtain ⟨hp, rfl⟩ := (bzOption_iff _ hg).mp hok
            exact ⟨_, hcall, permitted_cons.mpr ⟨hp, hperm⟩, Settings.given_cons.symm⟩
      · rintro ⟨gs, hgives, hperm, rfl⟩
        have hvalid := hgives.valid
        cases hgives with
        | done h => rw [hn] at h; cases h
        | @call _ _ _ _ c arg gs h hrest =>
            rw [hn] at h
            cases h
            have hg := known_of_valid (hvalid _ List.mem_cons_self)
            obtain ⟨hp, hps⟩ := permitted_cons.mp hperm
            obtain ⟨-, rfl⟩ := (bzOption_iff _ hg).mp hok
            exact ⟨gs, hrest, hps, Settings.given_cons⟩

end

/-- The settings of a command line that spells `gs`. -/
def Build.settings (B : Build) (gs : List (UInt8 × Option Str)) : Settings :=
  { bzSetDefaultInstance B with daemonize := true }.given gs

/-- What `bz_get_options` makes of a command line. -/
theorem bzGetOptions_iff {E : OptionEnv} {B : Build} {argv : List Str} {bz : Settings} :
    bzGetOptions E argv (bzSetDefaultInstance B) = .ok bz ↔
      ∃ gs, (options E.posix).Spells argv.tail gs ∧ Permitted E gs ∧ bz = B.settings gs := by
  unfold bzGetOptions
  rw [bzOptions_iff]
  simp only [Getopt.gives_iff_spells]
  rfl

theorem Build.settings_showVersion (B : Build) (gs : List (UInt8 × Option Str)) :
    (B.settings gs).showVersion = (given? gs 'h' || given? gs 'v') := by
  simp [Build.settings, Settings.given, bzSetDefaultInstance]

theorem Build.settings_showHelp (B : Build) (gs : List (UInt8 × Option Str)) :
    (B.settings gs).showHelp = given? gs 'h' := by
  simp [Build.settings, Settings.given, bzSetDefaultInstance]

section
variable {E : OptionEnv} {B : Build} {argv : List Str} {gs : List (UInt8 × Option Str)}

/-- The command lines that bitzer can use. -/
theorem mainBegin_of_spells (hgs : (options E.posix).Spells argv.tail gs) (hp : Permitted E gs) :
    mainBegin E B argv =
      if given? gs 'h' || given? gs 'v' then
        .version (bytes "bitzer: ".toList ++ B.version) (given? gs 'h')
      else .init (B.settings gs) := by
  unfold mainBegin
  rw [bzGetOptions_iff.mpr ⟨gs, hgs, hp, rfl⟩, ← B.settings_showVersion, ← B.settings_showHelp]

/-- And the others. -/
theorem mainBegin_usage (hno : ¬ ∃ gs, (options E.posix).Spells argv.tail gs ∧ Permitted E gs) :
    ∃ text, mainBegin E B argv = .usage text := by
  unfold mainBegin
  cases hget : bzGetOptions E argv (bzSetDefaultInstance B) with
  | error e => exact ⟨e, rfl⟩
  | ok bz =>
      obtain ⟨gs, hgs, hp, -⟩ := bzGetOptions_iff.mp hget
      exact absurd ⟨gs, hgs, hp⟩ hno

end

/-- Every command line that spells options bitzer can use is taken by them: for its
version, or for the start. On every other one it prints its usage. -/
theorem mainBegin_iff (E : OptionEnv) (B : Build) (argv : List Str) :
    (∀ bz, mainBegin E B argv = .init bz ↔
      ∃ gs, (options E.posix).Spells argv.tail gs ∧ Permitted E gs ∧
        given? gs 'h' = false ∧ given? gs 'v' = false ∧ bz = B.settings gs) ∧
    (∀ text help, mainBegin E B argv = .version text help ↔
      ∃ gs, (options E.posix).Spells argv.tail gs ∧ Permitted E gs ∧
        (given? gs 'h' = true ∨ given? gs 'v' = true) ∧ help = given? gs 'h' ∧
        text = bytes "bitzer: ".toList ++ B.version) ∧
    ((∃ text, mainBegin E B argv = .usage text) ↔
      ¬ ∃ gs, (options E.posix).Spells argv.tail gs ∧ Permitted E gs) := by
  by_cases hspells : ∃ gs, (options E.posix).Spells argv.tail gs ∧ Permitted E gs
  · obtain ⟨gs, hgs, hp⟩ := hspells
    have hone : ∀ gs', (options E.posix).Spells argv.tail gs' → gs' = gs :=
      fun gs' h => h.unique hgs
    rw [mainBegin_of_spells hgs hp]
    cases hv : given? gs 'h' || given? gs 'v' with
    | true =>
        have hor : given? gs 'h' = true ∨ given? gs 'v' = true := by simpa using hv
        refine ⟨fun bz => ⟨nofun, ?_⟩, fun text help => ?_, iff_of_false nofun ?_⟩
        · rintro ⟨gs', hgs', -, hh, hv', -⟩
          rw [hone gs' hgs'] at hh hv'
          rw [hh, hv'] at hv
          cases hv
        · constructor
          · intro h
            cases h
            exact ⟨gs, hgs, hp, hor, rfl, rfl⟩
          · rintro ⟨gs', hgs', -, -, rfl, rfl⟩
            rw [hone gs' hgs']
            rfl
        · exact fun hno => hno ⟨gs, hgs, hp⟩
    | false =>
        obtain ⟨hh, hv⟩ := Bool.or_eq_false_iff.mp hv
        refine ⟨fun bz => ?_, fun text help => ⟨nofun, ?_⟩, iff_of_false nofun ?_⟩
        · constructor
          · intro h
            cases h
            exact ⟨gs, hgs, hp, hh, hv, rfl⟩
          · rintro ⟨gs', hgs', -, -, -, rfl⟩
            rw [hone gs' hgs']
            rfl
        · rintro ⟨gs', hgs', -, hor, -⟩
          rw [hone gs' hgs', hh, hv] at hor
          exact absurd hor (by decide)
        · exact fun hno => hno ⟨gs, hgs, hp⟩
  · have hno : ∀ {P : List (UInt8 × Option Str) → Prop},
        ¬ ∃ gs, (options E.posix).Spells argv.tail gs ∧ Permitted E gs ∧ P gs := by
      rintro P ⟨gs, hgs, hp, -⟩
      exact hspells ⟨gs, hgs, hp⟩
    obtain ⟨text, htext⟩ := mainBegin_usage (B := B) hspells
    rw [htext]
    exact ⟨fun bz => iff_of_false nofun hno, fun _ _ => iff_of_false nofun hno,
      iff_of_true ⟨text, rfl⟩ hspells⟩

end Bitzer
