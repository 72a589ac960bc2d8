import Mathlib.Algebra.Ring.Nat
import Mathlib.Data.List.Nodup
import Mathlib.Tactic.Common

/-!
# Options on the command line

`getopt_long` of the C library on the words behind the program's name, for options
that take an argument or none. `Spells` is the grammar of the command lines, in which
nothing is scanned: a program that calls `getopt_long` until it returns -1 is given
the options of the one reading that its command line has.
-/

namespace Lib

/-- A C string. -/
abbrev Word := List UInt8

/-- `struct option`, with `flag` null. -/
structure LongOption where
  name : Word
  hasArg : Bool
  val : UInt8
  deriving DecidableEq, Repr

/-- The options of a program. `short` says whether a letter takes an argument;
`posix` is `POSIXLY_CORRECT`. -/
structure Getopt where
  short : UInt8 → Option Bool
  long : List LongOption
  posix : Bool
  dash : short 45 = none
  names : (long.map LongOption.name).Nodup
  vals : (long.map LongOption.val).Nodup

/-- What a call returns: an option with its `optarg`, or `'?'` with `optopt`. -/
inductive Got where
  | opt (c : UInt8) (optarg : Option Word)
  | bad (optopt : UInt8)
  deriving DecidableEq, Repr

namespace Getopt

variable (T : Getopt)

/-- The entry of a long name: the one with that name, else the one that it
abbreviates, if it abbreviates no two that differ. -/
def find (name : Word) : Option LongOption :=
  match T.long.find? fun o => o.name = name with
  | some o => some o
  | none =>
      match T.long.filter fun o => name.isPrefixOf o.name with
      | [] => none
      | o :: os =>
          if os.all fun o' => o'.hasArg = o.hasArg ∧ o'.val = o.val then some o else none

/-- The word `--w`, with `ws` behind it. -/
def longOpt (w : Word) (ws : List Word) : Got × List Word :=
  match T.find (w.takeWhile (· ≠ 61)) with
  | none => (.bad 0, ws)
  | some o =>
      match w.dropWhile (· ≠ 61), o.hasArg, ws with
      | _ :: arg, true, ws => (.opt o.val (some arg), ws)
      | _ :: _, false, ws => (.bad o.val, ws)
      | [], false, ws => (.opt o.val none, ws)
      | [], true, arg :: ws => (.opt o.val (some arg), ws)
      | [], true, [] => (.bad o.val, [])

/-- A letter, with `cs` behind it in its word and `ws` behind that. -/
def shortOpt (c : UInt8) (cs : Word) (ws : List Word) : Got × Word × List Word :=
  match T.short c, cs, ws with
  | none, cs, ws => (.bad c, cs, ws)
  | some false, cs, ws => (.opt c none, cs, ws)
  | some true, x :: cs, ws => (.opt c (some (x :: cs)), [], ws)
  | some true, [], arg :: ws => (.opt c (some arg), [], ws)
  | some true, [], [] => (.bad c, [], [])

/-- One call, on `nextchar` and the words still to scan. A word that is no option
is passed over, or ends the scan. -/
def next : Word → List Word → Option (Got × Word × List Word)
  | c :: cs, ws => some (T.shortOpt c cs ws)
  | [], [] => none
  | [], [45, 45] :: _ => none
  | [], (45 :: 45 :: w) :: ws => some ((T.longOpt w ws).1, [], (T.longOpt w ws).2)
  | [], (45 :: c :: cs) :: ws => some (T.shortOpt c cs ws)
  | [], _ :: ws => if T.posix then none else next [] ws

/-- The calls give these options, and then -1. -/
inductive Gives : Word → List Word → List (UInt8 × Option Word) → Prop
  | done {cs ws} (h : T.next cs ws = none) : Gives cs ws []
  | call {cs cs' ws ws' c arg gs} (h : T.next cs ws = some (.opt c arg, cs', ws'))
      (hrest : Gives cs' ws' gs) : Gives cs ws ((c, arg) :: gs)

/-! ## The grammar -/

/-- A name, or an abbreviation of that name alone. -/
def Names (name : Word) (o : LongOption) : Prop :=
  o ∈ T.long ∧ (o.name = name ∨ ∀ o' ∈ T.long, name <+: o'.name ↔ o' = o)

/-- The letters of a word with the words behind it: the options that they spell,
and the words left. -/
inductive Cluster : Word → List Word → List (UInt8 × Option Word) → List Word → Prop
  | nil {ws} : Cluster [] ws [] ws
  | flag {c cs ws gs ws'} (hc : T.short c = some false) (h : Cluster cs ws gs ws') :
      Cluster (c :: cs) ws ((c, none) :: gs) ws'
  | attached {c arg ws} (hc : T.short c = some true) (harg : arg ≠ []) :
      Cluster (c :: arg) ws [(c, some arg)] ws
  | separate {c arg ws} (hc : T.short c = some true) :
      Cluster [c] (arg :: ws) [(c, some arg)] ws

/-- A long option without its dashes. -/
inductive Long : Word → List Word → UInt8 × Option Word → List Word → Prop
  | flag {name ws o} (heq : 61 ∉ name) (h : T.Names name o) (harg : o.hasArg = false) :
      Long name ws (o.val, none) ws
  | attached {name arg ws o} (heq : 61 ∉ name) (h : T.Names name o) (harg : o.hasArg = true) :
      Long (name ++ 61 :: arg) ws (o.val, some arg) ws
  | separate {name arg ws o} (heq : 61 ∉ name) (h : T.Names name o) (harg : o.hasArg = true) :
      Long name (arg :: ws) (o.val, some arg) ws

/-- It starts with a dash and is not only that. -/
def IsOption : Word → Prop
  | 45 :: _ :: _ => True
  | _ => False

/-- A command line that spells these options. -/
inductive Spells : List Word → List (UInt8 × Option Word) → Prop
  | nil : Spells [] []
  | stop (ws) : Spells ([45, 45] :: ws) []
  | operands {w} (ws) (hposix : T.posix = true) (hw : ¬ IsOption w) : Spells (w :: ws) []
  | operand {w ws gs} (hposix : T.posix = false) (hw : ¬ IsOption w) (h : Spells ws gs) :
      Spells (w :: ws) gs
  | short {cs ws ws' gs gs'} (hne : cs ≠ []) (hcs : T.Cluster cs ws gs ws')
      (h : Spells ws' gs') : Spells ((45 :: cs) :: ws) (gs ++ gs')
  | long {w ws ws' g gs} (hne : w ≠ []) (hw : T.Long w ws g ws') (h : Spells ws' gs) :
      Spells ((45 :: 45 :: w) :: ws) (g :: gs)

variable {T} {name w : Word} {o o' : LongOption} {ws ws' : List Word} {cs cs' : Word}
  {g : UInt8 × Option Word} {gs : List (UInt8 × Option Word)}

theorem eq_of_name (h : o ∈ T.long) (h' : o' ∈ T.long) (heq : o.name = o'.name) : o = o' :=
  List.inj_on_of_nodup_map T.names h h' heq

theorem eq_of_val (h : o ∈ T.long) (h' : o' ∈ T.long) (heq : o.val = o'.val) : o = o' :=
  List.inj_on_of_nodup_map T.vals h h' heq

theorem find_eq_some_iff : T.find name = some o ↔ T.Names name o := by
  unfold find Names
  cases hexact : T.long.find? fun o => o.name = name with
  | some o₁ =>
      obtain rfl : o₁.name = name := by simpa using List.find?_some hexact
      have hmem := List.mem_of_find?_eq_some hexact
      constructor
      · rintro h
        cases h
        exact ⟨hmem, .inl rfl⟩
      · rintro ⟨ho, heq | huniq⟩
        · rw [eq_of_name ho hmem heq]
        · rw [(huniq o₁ hmem).mp (List.prefix_rfl)]
  | none =>
      have hno : ∀ o ∈ T.long, o.name ≠ name := by simpa using hexact
      have hfilter : ∀ o', o' ∈ T.long.filter (fun o => name.isPrefixOf o.name) ↔
          o' ∈ T.long ∧ name <+: o'.name := by simp
      cases hf : T.long.filter fun o => name.isPrefixOf o.name with
      | nil =>
          rw [hf] at hfilter
          refine ⟨nofun, ?_⟩
          rintro ⟨ho, heq | huniq⟩
          · exact absurd heq (hno o ho)
          · exact absurd ((hfilter o).mpr ⟨ho, (huniq o ho).mpr rfl⟩) List.not_mem_nil
      | cons o₁ os =>
          rw [hf] at hfilter
          obtain ⟨hmem, habbr⟩ := (hfilter o₁).mp List.mem_cons_self
          dsimp only
          split
          · rename_i hall
            -- the candidates agree, so there is one
            have huniq : ∀ o' ∈ T.long, name <+: o'.name → o' = o₁ := by
              intro o' ho' hpre
              rcases List.mem_cons.mp ((hfilter o').mpr ⟨ho', hpre⟩) with h | h
              · exact h
              · have hsame := List.all_eq_true.mp hall o' h
                simp only [decide_eq_true_eq] at hsame
                exact eq_of_val ho' hmem hsame.2
            constructor
            · intro h
              cases h
              refine ⟨hmem, .inr fun o' ho' => ⟨huniq o' ho', ?_⟩⟩
              rintro rfl
              exact habbr
            · rintro ⟨ho, heq | h⟩
              · exact absurd heq (hno o ho)
              · rw [(h o₁ hmem).mp habbr]
          · rename_i hall
            refine ⟨nofun, ?_⟩
            rintro ⟨ho, heq | h⟩
            · exact absurd heq (hno o ho)
            · refine absurd (List.all_eq_true.mpr fun o' ho' => ?_) hall
              obtain ⟨hmem', habbr'⟩ := (hfilter o').mp (List.mem_cons_of_mem _ ho')
              simp [(h o' hmem').mp habbr', (h o₁ hmem).mp habbr]

theorem takeWhile_name {v : Word} (heq : 61 ∉ name) (hv : v.head? = none ∨ v.head? = some 61) :
    (name ++ v).takeWhile (· ≠ 61) = name ∧ (name ++ v).dropWhile (· ≠ 61) = v := by
  have hall : ∀ c ∈ name, decide (c ≠ 61) = true := fun c hc => decide_eq_true fun h => heq (h ▸ hc)
  rw [List.takeWhile_append_of_pos hall, List.dropWhile_append_of_pos hall]
  rcases hv with hv | hv
  · rw [List.head?_eq_none_iff.mp hv]
    exact ⟨List.append_nil _, rfl⟩
  · obtain ⟨v', rfl⟩ := List.head?_eq_some_iff.mp hv
    exact ⟨by simp, by simp⟩

theorem longOpt_iff : T.longOpt w ws = (.opt g.1 g.2, ws') ↔ T.Long w ws g ws' := by
  obtain ⟨c, arg⟩ := g
  constructor
  · intro h
    -- the name ends at the first `=`
    have hsplit : ∃ name v, w = name ++ v ∧ 61 ∉ name ∧ (v.head? = none ∨ v.head? = some 61) := by
      by_cases hmem : 61 ∈ w
      · obtain ⟨name, v, rfl, hname⟩ := List.eq_append_cons_of_mem hmem
        exact ⟨name, 61 :: v, rfl, hname, .inr rfl⟩
      · exact ⟨w, [], (List.append_nil w).symm, hmem, .inl rfl⟩
    obtain ⟨name, v, rfl, hname, hv⟩ := hsplit
    obtain ⟨htake, hdrop⟩ := takeWhile_name hname hv
    unfold longOpt at h
    rw [htake, hdrop] at h
    cases hfind : T.find name with
    | none =>
        rw [hfind] at h
        cases h
    | some o =>
        rw [hfind] at h
        have hnames := find_eq_some_iff.mp hfind
        rcases hv with hv | hv
        · obtain rfl := List.head?_eq_none_iff.mp hv
          rw [List.append_nil]
          cases hb : o.hasArg with
          | false =>
              simp only [hb, Prod.mk.injEq, Got.opt.injEq] at h
              obtain ⟨⟨rfl, rfl⟩, rfl⟩ := h
              exact .flag hname hnames hb
          | true =>
              cases ws with
              | nil => simp [hb] at h
              | cons arg ws =>
                  simp only [hb, Prod.mk.injEq, Got.opt.injEq] at h
                  obtain ⟨⟨rfl, rfl⟩, rfl⟩ := h
                  exact .separate hname hnames hb
        · obtain ⟨v', rfl⟩ := List.head?_eq_some_iff.mp hv
          cases hb : o.hasArg with
          | false => simp [hb] at h
          | true =>
              simp only [hb, Prod.mk.injEq, Got.opt.injEq] at h
              obtain ⟨⟨rfl, rfl⟩, rfl⟩ := h
              exact .attached hname hnames hb
  · intro h
    unfold longOpt
    cases h with
    | flag heq hn harg =>
        obtain ⟨htake, hdrop⟩ := takeWhile_name (v := []) heq (.inl rfl)
        rw [List.append_nil] at htake hdrop
        rw [htake, hdrop, find_eq_some_iff.mpr hn]
        simp only [harg]
    | @attached name v _ o heq hn harg =>
        obtain ⟨htake, hdrop⟩ := takeWhile_name (v := 61 :: v) heq (.inr rfl)
        rw [htake, hdrop, find_eq_some_iff.mpr hn]
        simp only [harg]
    | separate heq hn harg =>
        obtain ⟨htake, hdrop⟩ := takeWhile_name (v := []) heq (.inl rfl)
        rw [List.append_nil] at htake hdrop
        rw [htake, hdrop, find_eq_some_iff.mpr hn]
        simp only [harg]

/-! ## The calls and the grammar -/

/-- A word is a word `--w`, or a word of letters, or no option. -/
theorem word_cases (w : Word) :
    (∃ v, w = 45 :: 45 :: v) ∨ (∃ c cs, c ≠ 45 ∧ w = 45 :: c :: cs) ∨ ¬ IsOption w := by
  cases w with
  | nil => exact .inr (.inr id)
  | cons x w =>
      by_cases hx : x = 45
      · subst hx
        cases w with
        | nil => exact .inr (.inr id)
        | cons c cs =>
            by_cases hc : c = 45
            · subst hc
              exact .inl ⟨cs, rfl⟩
            · exact .inr (.inl ⟨c, cs, hc, rfl⟩)
      · refine .inr (.inr ?_)
        unfold IsOption
        split
        · rename_i heq
          cases heq
          exact absurd rfl hx
        · exact id

theorem next_operand (T : Getopt) (ws : List Word) (hw : ¬ IsOption w) :
    T.next [] (w :: ws) = if T.posix then none else T.next [] ws := by
  rw [next]
  · rintro rfl
    exact hw trivial
  · rintro v rfl
    exact hw trivial
  · rintro c cs rfl
    exact hw trivial

theorem next_letter (T : Getopt) (c : UInt8) (cs : Word) (ws : List Word) :
    T.next (c :: cs) ws = some (T.shortOpt c cs ws) := by rw [next]

theorem next_letters {c : UInt8} (hc : c ≠ 45) :
    T.next [] ((45 :: c :: cs) :: ws) = T.next (c :: cs) ws := by
  rw [next_letter, next]
  · exact fun h _ => hc h
  · exact hc

theorem next_long (hne : w ≠ []) :
    T.next [] ((45 :: 45 :: w) :: ws) = some ((T.longOpt w ws).1, [], (T.longOpt w ws).2) := by
  obtain ⟨x, w, rfl⟩ := List.exists_cons_of_ne_nil hne
  rfl

theorem Gives.congr (h : T.Gives cs ws gs) (heq : T.next cs' ws' = T.next cs ws) :
    T.Gives cs' ws' gs := by
  cases h with
  | done h => exact .done (heq.trans h)
  | call h hrest => exact .call (heq.trans h) hrest

theorem Cluster.gives (hcs : T.Cluster cs ws gs ws') {gs' : List (UInt8 × Option Word)}
    (h : T.Gives [] ws' gs') : T.Gives cs ws (gs ++ gs') := by
  induction hcs with
  | nil => exact h
  | flag hc _ ih => exact .call (by simp [next, shortOpt, hc]) (ih h)
  | attached hc harg =>
      obtain ⟨x, cs, rfl⟩ := List.exists_cons_of_ne_nil harg
      exact .call (by simp [next, shortOpt, hc]) h
  | separate hc => exact .call (by simp [next, shortOpt, hc]) h

/-- A dash is no letter. -/
theorem Cluster.head_ne (h : T.Cluster cs ws gs ws') : cs.head? ≠ some 45 := by
  have hdash := T.dash
  rintro hhead
  cases h with
  | nil => cases hhead
  | flag hc _ =>
      cases hhead
      rw [hdash] at hc
      cases hc
  | attached hc _ =>
      cases hhead
      rw [hdash] at hc
      cases hc
  | separate hc =>
      cases hhead
      rw [hdash] at hc
      cases hc

/-- What a command line spells is given. -/
theorem Spells.gives (h : T.Spells ws gs) : T.Gives [] ws gs := by
  induction h with
  | nil => exact .done rfl
  | stop ws => exact .done rfl
  | operands ws hposix hw => exact .done (by rw [next_operand T ws hw, if_pos hposix])
  | @operand w ws gs hposix hw _ ih =>
      refine ih.congr ?_
      rw [next_operand T ws hw, hposix]
      rfl
  | @short cs ws ws' gs gs' hne hcs _ ih =>
      obtain ⟨c, cs, rfl⟩ := List.exists_cons_of_ne_nil hne
      exact (hcs.gives ih).congr (next_letters fun hc => hcs.head_ne (congrArg some hc))
  | @long w ws ws' g gs hne hw _ ih =>
      exact .call (by rw [next_long hne, longOpt_iff.mpr hw]) ih

/-- A call on a letter gives the next option of its word. -/
theorem Cluster.of_shortOpt {c d : UInt8} {arg : Option Word} {ws'' : List Word}
    (h : T.shortOpt c cs ws = (.opt d arg, cs', ws')) (hcs : T.Cluster cs' ws' gs ws'') :
    T.Cluster (c :: cs) ws ((d, arg) :: gs) ws'' := by
  unfold shortOpt at h
  split at h
  · cases h
  · rename_i hc
    cases h
    exact .flag hc hcs
  · rename_i hc
    cases h
    cases hcs
    exact .attached hc (List.cons_ne_nil _ _)
  · rename_i hc
    cases h
    cases hcs
    exact .separate hc
  · cases h

theorem Spells.of_done (h : T.next [] ws = none) : T.Spells ws [] := by
  induction ws with
  | nil => exact .nil
  | cons w ws ih =>
      obtain ⟨v, rfl⟩ | ⟨c, cs, hc, rfl⟩ | hw := word_cases w
      · cases v with
        | nil => exact .stop ws
        | cons x v => cases h
      · rw [next_letters hc, next_letter] at h
        cases h
      · rw [next_operand T ws hw] at h
        cases hposix : T.posix with
        | true => exact .operands ws hposix hw
        | false =>
            rw [hposix] at h
            exact .operand hposix hw (ih h)

/-- A call at a word gives the next option of the command line. -/
theorem Spells.of_next {c : UInt8} {arg : Option Word} {ws'' : List Word}
    {gs' : List (UInt8 × Option Word)} (h : T.next [] ws = some (.opt c arg, cs', ws'))
    (hcs : T.Cluster cs' ws' gs ws'') (hs : T.Spells ws'' gs') :
    T.Spells ws ((c, arg) :: gs ++ gs') := by
  induction ws with
  | nil => cases h
  | cons w ws ih =>
      obtain ⟨v, rfl⟩ | ⟨x, xs, hx, rfl⟩ | hw := word_cases w
      · cases v with
        | nil => cases h
        | cons x v =>
            rw [next_long (List.cons_ne_nil x v)] at h
            simp only [Option.some.injEq, Prod.mk.injEq] at h
            obtain ⟨hgot, rfl, hws⟩ := h
            cases hcs
            have hlong : T.longOpt (x :: v) ws = (.opt c arg, ws') := Prod.ext hgot hws
            exact .long (List.cons_ne_nil x v) (longOpt_iff (g := (c, arg)).mp hlong) hs
      · rw [next_letters hx, next_letter] at h
        exact .short (List.cons_ne_nil x xs) (.of_shortOpt (Option.some.inj h) hcs) hs
      · rw [next_operand T ws hw] at h
        cases hposix : T.posix with
        | true =>
            rw [hposix] at h
            cases h
        | false =>
            rw [hposix] at h
            exact .operand hposix hw (ih h)

/-- What is given inside a word is spelled by its letters and the words behind. -/
theorem Gives.cluster (h : T.Gives cs ws gs) :
    ∃ gs₁ gs₂ ws', gs = gs₁ ++ gs₂ ∧ T.Cluster cs ws gs₁ ws' ∧ T.Spells ws' gs₂ := by
  induction h with
  | @done cs ws h =>
      cases cs with
      | nil => exact ⟨[], [], ws, rfl, .nil, .of_done h⟩
      | cons c cs =>
          rw [next_letter] at h
          cases h
  | @call cs cs' ws ws' c arg gs h _ ih =>
      obtain ⟨gs₁, gs₂, ws'', rfl, hcs, hs⟩ := ih
      cases cs with
      | nil => exact ⟨[], _, ws, rfl, .nil, .of_next h hcs hs⟩
      | cons x xs =>
          rw [next_letter] at h
          exact ⟨(c, arg) :: gs₁, gs₂, ws'', rfl, .of_shortOpt (Option.some.inj h) hcs, hs⟩

/-- `getopt_long` reads what the command line spells. -/
theorem gives_iff_spells : T.Gives [] ws gs ↔ T.Spells ws gs := by
  constructor
  · intro h
    obtain ⟨gs₁, gs₂, ws', rfl, hcs, hs⟩ := h.cluster
    cases hcs
    exact hs
  · exact Spells.gives

/-- A command line has one reading. -/
theorem Spells.unique {gs' : List (UInt8 × Option Word)} (h : T.Spells ws gs)
    (h' : T.Spells ws gs') : gs = gs' := by
  have hgives : ∀ {cs ws} {gs gs' : List (UInt8 × Option Word)}, T.Gives cs ws gs →
      T.Gives cs ws gs' → gs = gs' := by
    intro cs ws gs gs' h h'
    induction h generalizing gs' with
    | done hn =>
        cases h' with
        | done _ => rfl
        | call hn' _ => exact absurd (hn.symm.trans hn') nofun
    | call hn _ ih =>
        cases h' with
        | done hn' => exact absurd (hn'.symm.trans hn) nofun
        | call hn' hrest' =>
            rw [hn] at hn'
            cases hn'
            rw [ih hrest']
  exact hgives h.gives h'.gives

/-! ## What is given -/

/-- An option of the program, with an argument if it takes one. -/
def Valid (T : Getopt) (g : UInt8 × Option Word) : Prop :=
  T.short g.1 = some g.2.isSome ∨ ∃ o ∈ T.long, o.val = g.1 ∧ o.hasArg = g.2.isSome

theorem Cluster.valid (h : T.Cluster cs ws gs ws') : ∀ g ∈ gs, T.Valid g := by
  induction h with
  | nil => nofun
  | flag hc _ ih => exact List.forall_mem_cons.mpr ⟨.inl hc, ih⟩
  | attached hc _ => exact List.forall_mem_singleton.mpr (.inl hc)
  | separate hc => exact List.forall_mem_singleton.mpr (.inl hc)

theorem Long.valid (h : T.Long w ws g ws') : T.Valid g := by
  cases h with
  | flag _ h harg => exact .inr ⟨_, h.1, rfl, harg⟩
  | attached _ h harg => exact .inr ⟨_, h.1, rfl, harg⟩
  | separate _ h harg => exact .inr ⟨_, h.1, rfl, harg⟩

theorem Spells.valid (h : T.Spells ws gs) : ∀ g ∈ gs, T.Valid g := by
  induction h with
  | nil => nofun
  | stop ws => nofun
  | operands ws _ _ => nofun
  | operand _ _ _ ih => exact ih
  | short _ hcs _ ih => exact List.forall_mem_append.mpr ⟨hcs.valid, ih⟩
  | long _ hw _ ih => exact List.forall_mem_cons.mpr ⟨hw.valid, ih⟩

theorem Gives.valid (h : T.Gives cs ws gs) : ∀ g ∈ gs, T.Valid g := by
  obtain ⟨gs₁, gs₂, ws', rfl, hcs, hs⟩ := h.cluster
  exact List.forall_mem_append.mpr ⟨hcs.valid, hs.valid⟩

/-! ## The calls end -/

/-- The bytes still to scan. -/
def left (cs : Word) (ws : List Word) : Nat := cs.length + (ws.map fun w => w.length + 1).sum

theorem shortOpt_left (T : Getopt) (c : UInt8) (cs : Word) (ws : List Word) :
    left (T.shortOpt c cs ws).2.1 (T.shortOpt c cs ws).2.2 < left (c :: cs) ws := by
  unfold shortOpt left
  split <;> simp only [List.length_cons, List.length_nil, List.map_cons, List.sum_cons] <;> omega

theorem longOpt_left (T : Getopt) (w : Word) (ws : List Word) :
    left [] (T.longOpt w ws).2 ≤ left [] ws := by
  unfold longOpt left
  split
  · exact Nat.le_refl _
  · split <;> simp

theorem next_left {got : Got} (h : T.next cs ws = some (got, cs', ws')) :
    left cs' ws' < left cs ws := by
  cases cs with
  | cons c cs =>
      rw [next_letter] at h
      have hlt := shortOpt_left T c cs ws
      rw [Option.some.inj h] at hlt
      exact hlt
  | nil =>
      induction ws with
      | nil => cases h
      | cons w ws ih =>
          have hcons : left [] (w :: ws) = w.length + 1 + left [] ws := by simp [left]
          obtain ⟨v, rfl⟩ | ⟨c, cs, hc, rfl⟩ | hw := word_cases w
          · cases v with
            | nil => cases h
            | cons x v =>
                rw [next_long (List.cons_ne_nil x v)] at h
                cases h
                have hle := longOpt_left T (x :: v) ws
                omega
          · rw [next_letters hc, next_letter] at h
            have hlt : left cs' ws' < left (c :: cs) ws := by
              have hlt := shortOpt_left T c cs ws
              rwa [Option.some.inj h] at hlt
            have hletters : left (c :: cs) ws = cs.length + 1 + left [] ws := by simp [left]
            rw [List.length_cons, List.length_cons] at hcons
            omega
          · rw [next_operand T ws hw] at h
            cases hposix : T.posix with
            | true =>
                rw [hposix] at h
                cases h
            | false =>
                rw [hposix] at h
                have hlt := ih h
                omega

end Getopt

end Lib
