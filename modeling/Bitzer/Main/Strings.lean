import Bitzer.Lib.Blocks
import Bitzer.Main.Child

/-!
# The strings of the instance

`struct bitzer_s` holds pointers: into `argv`, to constants, and to what
`BZ_STRCAT_IF_RELATIVE` has allocated. Here its names are built, read and freed byte by
byte in a memory of blocks; the functions on values say what is in it.
-/

namespace Bitzer

open Lib

abbrev Memory := Blocks UInt8

/-- The string `s` lies at `a`, with a zero behind it. -/
abbrev IsStr (M : Memory) (a : Addr) (s : Str) : Prop := Blocks.IsString 0 M a s

/-- The members of `struct bitzer_s` that are strings; `none` is `NULL`. -/
structure Pointers where
  prefixDir : Addr
  path : Member → Option Addr
  alloc : Member → Bool

/-- `*p` for a pointer that is `NULL` is a fault. -/
def nonNull : Option Addr → Prog Memory Addr
  | some a => pure a
  | none => fun _ => none

/-- The new name of `BZ_STRCAT_IF_RELATIVE`, where `malloc` succeeds. -/
def joinMem (prefixDir path : Addr) (plen len : Nat) : Prog Memory Addr := do
  let name ← Blocks.malloc (plen + len + 2)
  Blocks.memcpy name prefixDir plen
  let p := name.add plen
  let last ← Blocks.load (p.add (-1))
  let p ← (if last ≠ 47 then do
      Blocks.store p 47
      pure (p.add 1)
    else pure p)
  let len ← Blocks.strlen 0 path
  Blocks.memcpy p path (len + 1)
  return name

/-- `BZ_STRCAT_IF_RELATIVE`. -/
def strcatIfRelativeMem (k : Kernel) (m : Member) (bz : Pointers) :
    Prog Memory (Exit Pointers) := do
  let path ← nonNull (bz.path m)
  let c ← Blocks.load path
  if c ≠ 47 then do
    let plen ← Blocks.strlen 0 bz.prefixDir
    let len ← Blocks.strlen 0 path
    if k.ok (.malloc m) then do
      let name ← joinMem bz.prefixDir path plen len
      return .ok { bz with
        path := Function.update bz.path m (some name)
        alloc := Function.update bz.alloc m true }
    else return .error bz
  else return .ok bz

/-- The beginning of `bz_init_instance`. -/
def bzInitStrings (k : Kernel) (bz : Pointers) : Prog Memory (Exit Pointers) :=
  thenDo (strcatIfRelativeMem k .logFile bz) fun bz =>
  thenDo (strcatIfRelativeMem k .confFile bz) fun bz =>
  strcatIfRelativeMem k .pidFile bz

/-- `BZ_FREE_IF_ALLOC`. -/
def freeIfAllocMem (m : Member) (bz : Pointers) : Prog Memory Pointers := do
  if bz.alloc m then
    match bz.path m with
    | some a => Blocks.free a
    | none => pure ()
    return { bz with path := Function.update bz.path m none }
  else return bz

/-- The end of `bz_post_run`. -/
def bzPostRunStrings (bz : Pointers) : Prog Memory Pointers := do
  let bz ← freeIfAllocMem .logFile bz
  let bz ← freeIfAllocMem .confFile bz
  freeIfAllocMem .pidFile bz

/-- The first loop of `bz_setproctitle`, with the rest of `argv[0]` from `i` on. -/
def copyTitle (argv0 title : Addr) : Nat → Nat → Prog Memory Nat
  | 0, i => pure i
  | room + 1, i => do
      let c ← Blocks.load (title.add i)
      if c ≠ 0 then
        Blocks.store (argv0.add i) c
        copyTitle argv0 title room (i + 1)
      else return i

/-- The second loop. -/
def padTitle (argv0 : Addr) : Nat → Nat → Prog Memory Unit
  | 0, _ => pure ()
  | room + 1, i => do
      Blocks.store (argv0.add i) 32
      padTitle argv0 room (i + 1)

/-- `bz_setproctitle`. -/
def bzSetproctitle (argv0 title : Addr) : Prog Memory Unit := do
  let len ← Blocks.strlen 0 argv0
  let i ← copyTitle argv0 title len 0
  padTitle argv0 (len - i) i

/-- The name of the log in `task_redirect_io`; `log` and `ext` are the constants
`"/log/"` and `".log"`. -/
def taskLogPathMem (ok : ChildCall → Bool) (prefixDir name log ext : Addr) :
    Prog Memory (Option Addr) := do
  let plen ← Blocks.strlen 0 prefixDir
  let len ← Blocks.strlen 0 name
  if ok .malloc then
    let path ← Blocks.malloc (plen + len + 10)
    Blocks.strcpy 0 path prefixDir
    Blocks.strcat 0 path log
    Blocks.strcat 0 path name
    Blocks.strcat 0 path ext
    return some path
  else return none

/-! ## What the pointers show -/

/-- The strings of the instance are those of the process. -/
structure Shows (M : Memory) (bz : Pointers) (p : Proc) : Prop where
  prefixDir : IsStr M bz.prefixDir p.prefixDir
  path : ∀ m, ∃ a, bz.path m = some a ∧ IsStr M a (p.path m)
  alloc : bz.alloc = p.alloc

/-- A block that was allocated for the instance. -/
def Pointers.Owns (bz : Pointers) (i : Nat) : Prop :=
  ∃ m, bz.alloc m = true ∧ bz.path m = some ⟨i, 0⟩

/-- The block of one of its strings. -/
def Pointers.Uses (bz : Pointers) (i : Nat) : Prop :=
  bz.prefixDir.block = i ∨ ∃ m a, bz.path m = some a ∧ a.block = i

/-- The strings are what they were. -/
def Pointers.Kept (bz : Pointers) (M M' : Memory) : Prop := ∀ i, bz.Uses i → M'.get i = M.get i

/-- Blocks were allocated for the instance, each for one member, and nothing else was
done. -/
structure Acquired (bz₀ : Pointers) (M₀ : Memory) (bz : Pointers) (M : Memory) : Prop where
  prefixDir : bz.prefixDir = bz₀.prefixDir
  path : ∀ m, bz.alloc m = false → bz.path m = bz₀.path m
  next : M₀.next ≤ M.next
  block : ∀ m, bz.alloc m = true → ∃ i b, bz.path m = some ⟨i, 0⟩ ∧ M₀.next ≤ i ∧
    M.get i = some ⟨b, true⟩
  inj : ∀ m n, bz.alloc m = true → bz.alloc n = true → bz.path m = bz.path n → m = n
  others : ∀ i, ¬ bz.Owns i → M.get i = M₀.get i

/-- What `bz_setproctitle` makes of `argv[0]`. -/
def procTitle (argv0 title : Str) : Str :=
  title.take argv0.length ++ List.replicate (argv0.length - title.length) 32

/-- The members `ms` were freed, from `M` on. -/
structure Freed (bz : Pointers) (M : Memory) (ms : List Member) (bz' : Pointers) (M' : Memory) :
    Prop where
  alloc : bz'.alloc = bz.alloc
  path : ∀ m, m ∉ ms → bz'.path m = bz.path m
  null : ∀ m ∈ ms, bz.alloc m = true → bz'.path m = none
  freed : ∀ m ∈ ms, bz.alloc m = true → ∀ i, bz.path m = some ⟨i, 0⟩ → M'.get i = none
  others : ∀ i, (∀ m ∈ ms, bz.alloc m = true → bz.path m ≠ some ⟨i, 0⟩) → M'.get i = M.get i

/-- Where the members `ms` are still to be named. -/
structure ToName (bz₀ : Pointers) (M₀ : Memory) (ms : List Member) (M : Memory) (bz : Pointers)
    (p : Proc) : Prop where
  shows : Shows M bz p
  acquired : Acquired bz₀ M₀ bz M
  unnamed : ∀ m ∈ ms, p.alloc m = false
  prefixDir_ne : p.prefixDir ≠ []

section
variable {k : Kernel} {m : Member} {ms : List Member} {M M' M₀ : Memory}
  {bz bz' bz₀ : Pointers} {p q : Proc} {s t : Str} {i : Nat}

theorem wp_nonNull (a : Addr) (Q : Addr → Memory → Prop) : wp (nonNull (some a)) Q M ↔ Q a M :=
  wp_of_run rfl

theorem path_head (s : Str) : ∃ c rest, s ++ [0] = c :: rest ∧ (c ≠ 47 ↔ isRelative s = true) := by
  cases s with
  | nil => exact ⟨0, [], rfl, by decide⟩
  | cons c rest => exact ⟨c, rest ++ [0], rfl, by simp [isRelative]⟩

/-- The separator, where the prefix does not end in one. -/
theorem absPath_concat {last : UInt8} (h : isRelative s = true) :
    absPath (t ++ [last]) s = t ++ [last] ++ (if last ≠ 47 then [47] else []) ++ s := by
  unfold absPath
  rw [if_pos h, List.getLast?_concat]
  by_cases hlast : last = 47 <;> simp [hlast]

/-- The name is built within the block that was allocated for it. -/
theorem joinMem_spec {prefixDir path : Addr} {dir : Str} (hdir : IsStr M prefixDir dir)
    (hne : dir ≠ []) (hpath : IsStr M path s) (hrel : isRelative s = true) :
    wp (joinMem prefixDir path dir.length s.length) (fun a M' => a = ⟨M.next, 0⟩ ∧
      M'.Filled M.next (dir.length + s.length + 2) (absPath dir s ++ [0]) ∧
      Blocks.New M M') M := by
  obtain ⟨init, last, rfl⟩ : ∃ init last, dir = init ++ [last] :=
    ⟨_, _, (List.dropLast_append_getLast hne).symm⟩
  generalize hn : (init ++ [last]).length + s.length + 2 = n
  have hlen : (init ++ [last]).length = init.length + 1 := List.length_append
  unfold joinMem
  rw [hn]
  refine (wp_bind ..).mpr (wp_mono (Blocks.wp_malloc n) ?_)
  rintro _ M₁ ⟨rfl, hf₁, hnew₁⟩
  have hdir₁ : M₁.Has prefixDir (init ++ [last]) := (hdir.new hnew₁).has.of_append
  refine (wp_bind ..).mpr (wp_mono (Blocks.wp_memcpy_zero hf₁ hdir₁ (by omega)) ?_)
  rintro _ M₂ ⟨hf₂, honly₂⟩
  -- the last byte of the prefix
  have hlast : M₂.Has (((⟨M.next, 0⟩ : Addr).add (init ++ [last]).length).add (-1)) [last] := by
    have haddr : ((⟨M.next, 0⟩ : Addr).add (init ++ [last]).length).add (-1) =
        (⟨M.next, 0⟩ : Addr).add init.length := by
      simp only [Addr.add, hlen]
      congr 1
      omega
    rw [haddr]
    exact hf₂.has.add
  refine (wp_bind ..).mpr ((Blocks.wp_load hlast _).mpr ?_)
  have hstart : (⟨M.next, 0⟩ : Addr).add (init ++ [last]).length =
      ⟨M.next, (init ++ [last]).length⟩ := by
    rw [Addr.add, Int.zero_add]
  rw [hstart]
  -- the separator
  refine (wp_bind ..).mpr (wp_mono (?_ : wp _ (fun p M₃ =>
    p = ⟨M.next, (init ++ [last] ++ if last ≠ 47 then [47] else []).length⟩ ∧
    M₃.Filled M.next n (init ++ [last] ++ if last ≠ 47 then [47] else []) ∧
    Blocks.New M M₃) M₂) ?_)
  · by_cases h47 : last ≠ 47
    · simp only [if_pos h47]
      have hstore : wp (Blocks.store ⟨M.next, (init ++ [last]).length⟩ 47) _ M₂ :=
        Blocks.wp_write hf₂ (by rw [List.length_singleton]; omega)
      refine (wp_bind ..).mpr (wp_mono hstore ?_)
      rintro _ M₃ ⟨hf₃, honly₃⟩
      refine (wp_pure ..).mpr ⟨?_, hf₃, hnew₁.only (honly₂.trans honly₃)⟩
      have happ : (init ++ [last] ++ [47]).length = (init ++ [last]).length + 1 :=
        List.length_append
      rw [Addr.add, happ, Int.natCast_add]
      rfl
    · simp only [if_neg h47, List.append_nil]
      exact (wp_pure ..).mpr ⟨rfl, hf₂, hnew₁.only honly₂⟩
  rintro _ M₃ ⟨rfl, hf₃, hnew₃⟩
  -- the path
  have hpath₃ := hpath.new hnew₃
  refine (wp_bind ..).mpr ((Blocks.wp_strlen hpath₃ _).mpr ?_)
  have hsep : (if last ≠ 47 then [47] else [] : Str).length ≤ 1 := by
    split <;> simp
  have hs0 : (s ++ [0]).length = s.length + 1 := List.length_append
  have hcpy := Blocks.wp_memcpy hf₃ hpath₃.has (by rw [hs0, List.length_append]; omega)
  rw [hs0] at hcpy
  refine (wp_bind ..).mpr (wp_mono hcpy ?_)
  rintro _ M₄ ⟨hf₄, honly₄⟩
  refine (wp_pure ..).mpr ⟨rfl, ?_, hnew₃.only honly₄⟩
  rwa [absPath_concat hrel, List.append_assoc _ s]

theorem absPath_nul (hs : 0 ∉ s) (ht : 0 ∉ t) : 0 ∉ absPath t s := by
  unfold absPath
  split
  · intro h
    rcases List.mem_append.mp h with h | h
    · rcases List.mem_append.mp h with h | h
      · exact ht h
      · split at h <;> simp at h
    · exact hs h
  · exact hs

theorem Acquired.lt (h : Acquired bz₀ M₀ bz M) (hm : bz.alloc m = true)
    (hpath : bz.path m = some ⟨i, 0⟩) : i < M.next := by
  obtain ⟨j, b, hj, -, hget⟩ := h.block m hm
  cases hj.symm.trans hpath
  exact Blocks.lt_next (by rw [hget]; exact Option.some_ne_none _)

/-- One more block for a member that had none. -/
theorem Acquired.add {n : Nat} {xs : Str} (h : Acquired bz₀ M₀ bz M) (hm : bz.alloc m = false)
    (hnew : Blocks.New M M') (hf : M'.Filled M.next n xs) :
    Acquired bz₀ M₀ { bz with
      path := Function.update bz.path m (some ⟨M.next, 0⟩)
      alloc := Function.update bz.alloc m true } M' := by
  have hold : ∀ l, l ≠ m → Function.update bz.alloc m true l = true → bz.alloc l = true :=
    fun l hl hal => (Function.update_of_ne hl ..).symm.trans hal
  -- the blocks of the other members are older
  have hne : ∀ l, bz.alloc l = true → bz.path l ≠ some ⟨M.next, 0⟩ :=
    fun l hal hp => Nat.lt_irrefl _ (h.lt hal hp)
  refine ⟨h.prefixDir, fun l hl => ?_, ?_, fun l hl => ?_, fun l l' hl hl' hp => ?_,
    fun i hi => ?_⟩
  · have hlm : l ≠ m := by
      rintro rfl
      cases (Function.update_self ..).symm.trans hl
    refine (Function.update_of_ne hlm ..).trans (h.path l ?_)
    exact (Function.update_of_ne hlm ..).symm.trans hl
  · rw [hnew.next]
    exact Nat.le_succ_of_le h.next
  · by_cases hlm : l = m
    · subst hlm
      obtain ⟨b, hb, -, -⟩ := hf
      exact ⟨M.next, b, Function.update_self .., h.next, hb⟩
    · obtain ⟨i, b, hp, hle, hget⟩ := h.block l (hold l hlm hl)
      have hi : i ≠ M.next := Nat.ne_of_lt (h.lt (hold l hlm hl) hp)
      exact ⟨i, b, (Function.update_of_ne hlm ..).trans hp, hle, (hnew.get i hi).trans hget⟩
  · simp only [Function.update_apply] at hp
    by_cases hlm : l = m
    · by_cases hlm' : l' = m
      · rw [hlm, hlm']
      · rw [if_pos hlm, if_neg hlm'] at hp
        exact absurd hp.symm (hne l' (hold l' hlm' hl'))
    · by_cases hlm' : l' = m
      · rw [if_neg hlm, if_pos hlm'] at hp
        exact absurd hp (hne l (hold l hlm hl))
      · rw [if_neg hlm, if_neg hlm'] at hp
        exact h.inj l l' (hold l hlm hl) (hold l' hlm' hl') hp
  · have hnext : i ≠ M.next := by
      rintro rfl
      exact hi ⟨m, Function.update_self .., Function.update_self ..⟩
    rw [hnew.get i hnext]
    refine h.others i fun ⟨l, hal, hp⟩ => hi ⟨l, ?_, ?_⟩
    · show Function.update bz.alloc m true l = true
      rw [Function.update_apply, hal, ite_self]
    · refine (Function.update_of_ne ?_ ..).trans hp
      rintro rfl
      rw [hm] at hal
      cases hal

/-- The new name is shown too. -/
theorem Shows.add {n : Nat} (h : Shows M bz p) (hnew : Blocks.New M M')
    (hf : M'.Filled M.next n (s ++ [0])) (hs : 0 ∉ s) (effects : List Effect) :
    Shows M' { bz with
        path := Function.update bz.path m (some ⟨M.next, 0⟩)
        alloc := Function.update bz.alloc m true }
      { p with
        path := Function.update p.path m s
        alloc := Function.update p.alloc m true
        effects := effects } := by
  refine ⟨h.prefixDir.new hnew, fun l => ?_, ?_⟩
  · by_cases hlm : l = m
    · subst hlm
      refine ⟨_, Function.update_self .., ?_⟩
      show IsStr M' _ (Function.update p.path l s l)
      rw [Function.update_self]
      exact ⟨hf.has, hs⟩
    · obtain ⟨a, ha, hstr⟩ := h.path l
      refine ⟨a, (Function.update_of_ne hlm ..).trans ha, ?_⟩
      show IsStr M' a (Function.update p.path m s l)
      rw [Function.update_of_ne hlm]
      exact hstr.new hnew
  · rw [h.alloc]

/-- One `BZ_STRCAT_IF_RELATIVE`. -/
theorem ToName.step (h : ToName bz₀ M₀ (m :: ms) M bz p) (hms : m ∉ ms) :
    wp (strcatIfRelativeMem k m bz) (fun r M' =>
      r.Both (ToName bz₀ M₀ ms M') (ToName bz₀ M₀ [] M') (strcatIfRelative k m p)) M := by
  obtain ⟨a, ha, hpath⟩ := h.shows.path m
  obtain ⟨c, rest, hhead, hrel⟩ := path_head (p.path m)
  obtain ⟨hunnamed, hrest⟩ := List.forall_mem_cons.mp h.unnamed
  have halloc : bz.alloc m = false := by rw [h.shows.alloc, hunnamed]
  unfold strcatIfRelativeMem strcatIfRelative
  rw [ha]
  refine (wp_bind ..).mpr ((wp_nonNull ..).mpr ((wp_bind ..).mpr ?_))
  refine (Blocks.wp_load (hhead ▸ hpath.has) _).mpr ?_
  by_cases hc : c ≠ 47
  · simp only [if_pos hc, if_pos (hrel.mp hc)]
    refine (wp_bind ..).mpr ((Blocks.wp_strlen h.shows.prefixDir _).mpr ?_)
    refine (wp_bind ..).mpr ((Blocks.wp_strlen hpath _).mpr ?_)
    by_cases hok : k.ok (.malloc m) = true
    · simp only [if_pos hok]
      have hjoin := joinMem_spec h.shows.prefixDir h.prefixDir_ne hpath (hrel.mp hc)
      refine (wp_bind ..).mpr (wp_mono hjoin ?_)
      rintro _ M' ⟨rfl, hf, hnew⟩
      refine (wp_pure ..).mpr ⟨h.shows.add hnew hf ?_ _, h.acquired.add halloc hnew hf, ?_, ?_⟩
      · exact absPath_nul hpath.nul_notMem h.shows.prefixDir.nul_notMem
      · intro l hl
        refine (Function.update_of_ne ?_ ..).trans (hrest l hl)
        rintro rfl
        exact hms hl
      · exact h.prefixDir_ne
    · simp only [if_neg hok]
      exact (wp_pure ..).mpr ⟨h.shows, h.acquired, List.forall_mem_nil _, h.prefixDir_ne⟩
  · simp only [if_neg hc, if_neg (mt hrel.mpr hc)]
    exact (wp_pure ..).mpr ⟨h.shows, h.acquired, hrest, h.prefixDir_ne⟩

/-- The three names. -/
theorem ToName.all (h : ToName bz₀ M₀ [.logFile, .confFile, .pidFile] M bz p) :
    wp (bzInitStrings k bz) (fun r M' => r.Both (ToName bz₀ M₀ [] M') (ToName bz₀ M₀ [] M')
      ((strcatIfRelative k .logFile p).andThen fun p =>
        (strcatIfRelative k .confFile p).andThen fun p => strcatIfRelative k .pidFile p)) M := by
  refine wp_thenDo (h.step (by decide)) fun bz p M h => ?_
  refine wp_thenDo (h.step (by decide)) fun bz p M h => ?_
  exact h.step List.not_mem_nil

/-! ## The other functions -/

/-- One `BZ_FREE_IF_ALLOC`. -/
theorem Freed.step {l : Member} (h : Freed bz M ms bz' M')
    (hblock : ∀ m, bz.alloc m = true → ∃ i b, bz.path m = some ⟨i, 0⟩ ∧ M.get i = some ⟨b, true⟩)
    (hinj : ∀ m n, bz.alloc m = true → bz.alloc n = true → bz.path m = bz.path n → m = n)
    (hl : l ∉ ms) : wp (freeIfAllocMem l bz') (Freed bz M (l :: ms)) M' := by
  unfold freeIfAllocMem
  rw [h.alloc]
  by_cases hal : bz.alloc l = true
  · simp only [if_pos hal]
    obtain ⟨i, b, hp, hget⟩ := hblock l hal
    have hapart : ∀ m ∈ ms, bz.alloc m = true → bz.path m ≠ some ⟨i, 0⟩ := by
      intro m hm halm hpm
      cases hinj m l halm hal (hpm.trans hp.symm)
      exact hl hm
    have hget' : M'.get i = some ⟨b, true⟩ := (h.others i hapart).trans hget
    rw [h.path l hl, hp]
    refine (wp_bind ..).mpr ((Blocks.wp_free hget' _).mpr ((wp_pure ..).mpr ?_))
    refine ⟨rfl, fun m hm => ?_, fun m hm halm => ?_, fun m hm halm j hj => ?_, fun j hj => ?_⟩
    · obtain ⟨hne, hms⟩ := not_or.mp (mt List.mem_cons.mpr hm)
      exact (Function.update_of_ne hne ..).trans (h.path m hms)
    · show Function.update bz'.path l none m = none
      rw [Function.update_apply]
      split
      · rfl
      · rename_i hne
        exact h.null m ((List.mem_cons.mp hm).resolve_left hne) halm
    · show Function.update M'.get i none j = none
      rw [Function.update_apply]
      split
      · rfl
      · rename_i hji
        rcases List.mem_cons.mp hm with rfl | hm
        · cases hp.symm.trans hj
          exact absurd rfl hji
        · exact h.freed m hm halm j hj
    · obtain ⟨hjl, hjms⟩ := List.forall_mem_cons.mp hj
      refine (Function.update_of_ne ?_ ..).trans (h.others j hjms)
      rintro rfl
      exact hjl hal hp
  · simp only [if_neg hal]
    refine (wp_pure ..).mpr ⟨h.alloc, fun m hm => h.path m (mt (List.mem_cons_of_mem l) hm),
      fun m hm halm => ?_, fun m hm halm => ?_, fun j hj => h.others j ?_⟩
    · rcases List.mem_cons.mp hm with rfl | hm
      · exact absurd halm hal
      · exact h.null m hm halm
    · rcases List.mem_cons.mp hm with rfl | hm
      · exact absurd halm hal
      · exact h.freed m hm halm
    · exact (List.forall_mem_cons.mp hj).2

/-- `bz_post_run`. -/
theorem bzPostRunStrings_spec
    (hblock : ∀ m, bz.alloc m = true → ∃ i b, bz.path m = some ⟨i, 0⟩ ∧ M.get i = some ⟨b, true⟩)
    (hinj : ∀ m n, bz.alloc m = true → bz.alloc n = true → bz.path m = bz.path n → m = n) :
    wp (bzPostRunStrings bz) (Freed bz M [.pidFile, .confFile, .logFile]) M := by
  have h₀ : Freed bz M [] bz M := ⟨rfl, fun _ _ => rfl, nofun, nofun, fun _ _ => rfl⟩
  refine (wp_bind ..).mpr (wp_mono (h₀.step hblock hinj List.not_mem_nil) fun bz₁ M₁ h₁ => ?_)
  refine (wp_bind ..).mpr (wp_mono (h₁.step hblock hinj (by decide)) fun bz₂ M₂ h₂ => ?_)
  exact h₂.step hblock hinj (by decide)

/-- The first loop, with `t₁` copied and `s₂` left of `argv[0]`. -/
theorem copyTitle_spec {argv0 title : Addr} (hne : title.block ≠ argv0.block) {t₁ t₂ s₂ : Str}
    (htitle : IsStr M title (t₁ ++ t₂)) (hs : M.Has argv0 (t₁ ++ (s₂ ++ [0]))) :
    wp (copyTitle argv0 title s₂.length t₁.length) (fun j M' =>
      j = (t₁ ++ t₂.take s₂.length).length ∧
      M'.Has argv0 (t₁ ++ t₂.take s₂.length ++ (s₂.drop t₂.length ++ [0])) ∧
      Blocks.Only argv0.block M M') M := by
  induction s₂ generalizing t₁ t₂ M with
  | nil => exact (wp_pure ..).mpr ⟨by simp, by simpa using hs, rfl, fun _ _ => rfl⟩
  | cons x s₂ ih =>
      have hrest : M.Has (title.add t₁.length) (t₂ ++ [0]) := by
        have hhas := htitle.has
        rw [List.append_assoc] at hhas
        exact hhas.add
      cases t₂ with
      | nil =>
          -- the title ends here
          refine (wp_bind ..).mpr ((Blocks.wp_load hrest _).mpr ?_)
          exact (wp_pure ..).mpr ⟨by simp, by simpa using hs, rfl, fun _ _ => rfl⟩
      | cons c t₂ =>
          have hc : c ≠ 0 := by
            rintro rfl
            exact htitle.nul_notMem (List.mem_append_right _ List.mem_cons_self)
          refine (wp_bind ..).mpr ((Blocks.wp_load hrest _).mpr ?_)
          simp only [if_pos hc]
          refine (wp_bind ..).mpr (wp_mono (Blocks.wp_store hs) ?_)
          rintro _ M₁ ⟨hs₁, honly₁⟩
          have htitle₁ : IsStr M₁ title (t₁ ++ [c] ++ t₂) := by
            rw [List.append_assoc]
            exact htitle.congr (honly₁.get _ hne)
          have hs₁ : M₁.Has argv0 (t₁ ++ [c] ++ (s₂ ++ [0])) := by
            rw [List.append_assoc]
            exact hs₁
          have hrec := ih htitle₁ hs₁
          rw [List.length_append, List.length_singleton] at hrec
          refine wp_mono hrec ?_
          rintro _ M₂ ⟨rfl, hs₂, honly₂⟩
          exact ⟨by simp, by simpa using hs₂, honly₁.trans honly₂⟩

/-- The second loop, with `t` in place and `s` left. -/
theorem padTitle_spec {argv0 : Addr} (hs : M.Has argv0 (t ++ (s ++ [0]))) :
    wp (padTitle argv0 s.length t.length) (fun _ M' =>
      M'.Has argv0 (t ++ (List.replicate s.length 32 ++ [0])) ∧
      Blocks.Only argv0.block M M') M := by
  induction s generalizing t M with
  | nil => exact (wp_pure ..).mpr ⟨hs, rfl, fun _ _ => rfl⟩
  | cons x s ih =>
      refine (wp_bind ..).mpr (wp_mono (Blocks.wp_store hs) ?_)
      rintro _ M₁ ⟨hs₁, honly₁⟩
      have hs₁ : M₁.Has argv0 (t ++ [32] ++ (s ++ [0])) := by
        rw [List.append_assoc]
        exact hs₁
      have hrec := ih hs₁
      rw [List.length_append, List.length_singleton] at hrec
      refine wp_mono hrec ?_
      rintro _ M₂ ⟨hs₂, honly₂⟩
      refine ⟨?_, honly₁.trans honly₂⟩
      rw [List.append_assoc] at hs₂
      exact hs₂

/-- `bz_setproctitle` stays within the string, and keeps its length. -/
theorem bzSetproctitle_spec {argv0 title : Addr} (hs : IsStr M argv0 s) (htitle : IsStr M title t)
    (hne : title.block ≠ argv0.block) :
    wp (bzSetproctitle argv0 title) (fun _ M' => IsStr M' argv0 (procTitle s t) ∧
      Blocks.Only argv0.block M M') M := by
  refine (wp_bind ..).mpr ((Blocks.wp_strlen hs _).mpr ((wp_bind ..).mpr ?_))
  have htitle₀ : IsStr M title ([] ++ t) := htitle
  refine wp_mono (copyTitle_spec hne htitle₀ hs.has) ?_
  rintro _ M₁ ⟨rfl, hs₁, honly₁⟩
  rw [List.nil_append] at hs₁
  have hroom : s.length - ([] ++ t.take s.length : Str).length = (s.drop t.length).length := by
    rw [List.nil_append, List.length_take, List.length_drop]
    omega
  rw [hroom]
  refine wp_mono (padTitle_spec hs₁) ?_
  rintro _ M₂ ⟨hs₂, honly₂⟩
  refine ⟨⟨?_, fun h => ?_⟩, honly₁.trans honly₂⟩
  · rw [List.length_drop, ← List.append_assoc] at hs₂
    exact hs₂
  · rcases List.mem_append.mp h with h | h
    · exact htitle.nul_notMem (List.mem_of_mem_take h)
    · exact absurd (List.eq_of_mem_replicate h) (by decide)

/-- The name of the log fills what is allocated for it. -/
theorem taskLogPathMem_spec {ok : ChildCall → Bool} {prefixDir name log ext : Addr} {dir : Str}
    (hdir : IsStr M prefixDir dir) (hname : IsStr M name s)
    (hlog : IsStr M log (bytes ['/', 'l', 'o', 'g', '/']))
    (hext : IsStr M ext (bytes ['.', 'l', 'o', 'g'])) (hok : ok .malloc = true) :
    wp (taskLogPathMem ok prefixDir name log ext) (fun a M' => a = some ⟨M.next, 0⟩ ∧
      IsStr M' ⟨M.next, 0⟩ (taskLogPath dir s) ∧
      M'.get M.next = some ⟨(taskLogPath dir s ++ [0]).map some, true⟩ ∧ Blocks.New M M') M := by
  have hloglen : (bytes ['/', 'l', 'o', 'g', '/']).length = 5 := rfl
  have hextlen : (bytes ['.', 'l', 'o', 'g']).length = 4 := rfl
  refine (wp_bind ..).mpr ((Blocks.wp_strlen hdir _).mpr ?_)
  refine (wp_bind ..).mpr ((Blocks.wp_strlen hname _).mpr ?_)
  simp only [if_pos hok]
  refine (wp_bind ..).mpr (wp_mono (Blocks.wp_malloc _) ?_)
  rintro _ M₁ ⟨rfl, hf₁, hnew₁⟩
  refine (wp_bind ..).mpr (wp_mono (Blocks.wp_strcpy hf₁ (hdir.new hnew₁) (by omega)) ?_)
  rintro _ M₂ ⟨hf₂, honly₂⟩
  have hnew₂ := hnew₁.only honly₂
  refine (wp_bind ..).mpr (wp_mono (Blocks.wp_strcat hf₂ hdir.nul_notMem (hlog.new hnew₂)
    (by omega)) ?_)
  rintro _ M₃ ⟨hf₃, honly₃⟩
  have hnew₃ := hnew₂.only honly₃
  have hnul₃ : 0 ∉ dir ++ bytes ['/', 'l', 'o', 'g', '/'] := fun h =>
    (List.mem_append.mp h).elim hdir.nul_notMem hlog.nul_notMem
  refine (wp_bind ..).mpr (wp_mono (Blocks.wp_strcat hf₃ hnul₃ (hname.new hnew₃) ?_) ?_)
  · rw [List.length_append]
    omega
  rintro _ M₄ ⟨hf₄, honly₄⟩
  have hnew₄ := hnew₃.only honly₄
  have hnul₄ : 0 ∉ dir ++ bytes ['/', 'l', 'o', 'g', '/'] ++ s := fun h =>
    (List.mem_append.mp h).elim hnul₃ hname.nul_notMem
  refine (wp_bind ..).mpr (wp_mono (Blocks.wp_strcat hf₄ hnul₄ (hext.new hnew₄) ?_) ?_)
  · rw [List.length_append, List.length_append]
    omega
  rintro _ M₅ ⟨hf₅, honly₅⟩
  have hnul₅ : 0 ∉ taskLogPath dir s := fun h =>
    (List.mem_append.mp h).elim hnul₄ hext.nul_notMem
  refine (wp_pure ..).mpr ⟨rfl, ⟨hf₅.has, hnul₅⟩, hf₅.full ?_, hnew₄.only honly₅⟩
  simp only [List.length_append, List.length_singleton, hloglen, hextlen]
  omega

/-! ## The initialisation as a whole -/

theorem Shows.kept (h : Shows M bz p) (hkept : bz.Kept M M') : Shows M' bz p := by
  refine ⟨h.prefixDir.congr (hkept _ (Or.inl rfl)), fun m => ?_, h.alloc⟩
  obtain ⟨a, ha, hstr⟩ := h.path m
  exact ⟨a, ha, hstr.congr (hkept _ (Or.inr ⟨m, a, ha, rfl⟩))⟩

theorem Shows.uses_lt (h : Shows M bz p) (hi : bz.Uses i) : i < M.next := by
  rcases hi with rfl | ⟨m, a, ha, rfl⟩
  · exact h.prefixDir.has.lt_next
  · obtain ⟨a', ha', hstr⟩ := h.path m
    cases ha'.symm.trans ha
    exact hstr.has.lt_next

/-- What the strings are about is the same. -/
structure Alike (p q : Proc) : Prop where
  prefixDir : q.prefixDir = p.prefixDir
  path : q.path = p.path
  alloc : q.alloc = p.alloc

theorem Shows.alike (h : Shows M bz p) (hpq : Alike p q) : Shows M bz q := by
  refine ⟨?_, fun m => ?_, h.alloc.trans hpq.alloc.symm⟩
  · rw [hpq.prefixDir]
    exact h.prefixDir
  · rw [hpq.path]
    exact h.path m

theorem Alike.refl (p : Proc) : Alike p p := ⟨rfl, rfl, rfl⟩

theorem Alike.trans {r : Proc} (h : Alike p q) (h' : Alike q r) : Alike p r :=
  ⟨h'.prefixDir.trans h.prefixDir, h'.path.trans h.path, h'.alloc.trans h.alloc⟩

theorem bzLogCreate_alike : (bzLogCreate k p).Ends (Alike p) (Alike p) := by
  unfold bzLogCreate
  refine Exit.Ends.ite (fun _ => Exit.Ends.ite (fun _ => ?_) fun _ => ?_) fun _ => ?_
  · exact ⟨rfl, rfl, rfl⟩
  · exact Exit.Ends.ite (fun _ => ⟨rfl, rfl, rfl⟩) fun _ => ⟨rfl, rfl, rfl⟩
  · exact ⟨rfl, rfl, rfl⟩

/-- Behind the names nothing changes them. -/
theorem bzInitInstance_rest (daemonize : Bool) :
    ((bzLogCreate k p).andThen fun p =>
      (if daemonize then bzDaemonize k p else .ok p).andThen fun p =>
      (if daemonize then bzRedirectIo k p else .ok p).andThen fun p =>
      (signalInit k p).andThen fun p =>
      bzWritePidfile k { p with pid := k.getpid }).Ends (Alike p) (Alike p) := by
  refine bzLogCreate_alike.andThen fun p₁ h₁ => ?_
  refine Exit.Ends.andThen (D := Alike p) ?_ fun p₂ h₂ => Exit.Ends.andThen (D := Alike p) ?_
    fun p₃ h₃ => Exit.Ends.andThen (D := Alike p) ?_ fun p₄ h₄ => ?_
  · cases daemonize with
    | false => exact h₁
    | true => exact bzDaemonize_ends.mono (fun q hq => hq.2 ▸ h₁) fun q hq => hq.2 ▸ h₁
  · cases daemonize with
    | false => exact h₂
    | true =>
        refine bzRedirectIo_ends.mono (fun q hq => h₂.trans ?_) fun q hq => h₂.trans ?_
        · rw [hq.2]
          exact ⟨rfl, rfl, rfl⟩
        · rw [hq.2]
          exact ⟨rfl, rfl, rfl⟩
  · refine sigactions_ends.mono (fun q hq => h₃.trans ?_) fun q hq => h₃.trans ?_
    · rw [hq.2]
      exact ⟨rfl, rfl, rfl⟩
    · rw [hq.2]
      exact ⟨rfl, rfl, rfl⟩
  · refine bzWritePidfile_ends.mono (fun q hq => h₄.trans ?_) fun q hq => h₄.trans ?_
    · rw [hq.2]
      exact ⟨rfl, rfl, rfl⟩
    · rcases hq with ⟨-, hq⟩ | ⟨-, rfl⟩
      · rw [hq]
        exact ⟨rfl, rfl, rfl⟩
      · exact ⟨rfl, rfl, rfl⟩

/-- The strings behind the initialisation. -/
theorem bzInitStrings_spec {start : Start} {daemonize : Bool} (hshows : Shows M₀ bz₀ start.proc)
    (hinit : (bzInitInstance k daemonize start.proc).state? = some p) :
    wp (bzInitStrings k bz₀) (fun r M => ∃ bz, r.state? = some bz ∧
      (bzInitInstance k daemonize start.proc = .ok p → r = .ok bz) ∧ Shows M bz p ∧
      Acquired bz₀ M₀ bz M) M₀ := by
  have hstart : ToName bz₀ M₀ [.logFile, .confFile, .pidFile] M₀ bz₀ start.proc := by
    have hno : ∀ m, bz₀.alloc m ≠ true := fun m hm => by
      rw [hshows.alloc] at hm
      cases hm
    refine ⟨hshows, ⟨rfl, fun _ _ => rfl, Nat.le_refl _, fun m hm => absurd hm (hno m),
      fun m _ hm => absurd hm (hno m), fun _ _ => rfl⟩, fun _ _ => rfl, start.prefixDir_ne⟩
  refine wp_mono (hstart.all (k := k)) fun r M h => ?_
  have hsplit : bzInitInstance k daemonize start.proc =
      ((strcatIfRelative k .logFile start.proc).andThen fun p =>
        (strcatIfRelative k .confFile p).andThen fun p => strcatIfRelative k .pidFile p).andThen
      fun p => (bzLogCreate k p).andThen fun p =>
        (if daemonize then bzDaemonize k p else .ok p).andThen fun p =>
        (if daemonize then bzRedirectIo k p else .ok p).andThen fun p =>
        (signalInit k p).andThen fun p => bzWritePidfile k { p with pid := k.getpid } := by
    simp only [Exit.andThen_assoc]
    rfl
  rw [hsplit] at hinit ⊢
  generalize ((strcatIfRelative k .logFile start.proc).andThen fun p =>
    (strcatIfRelative k .confFile p).andThen fun p => strcatIfRelative k .pidFile p) = names
    at h hinit ⊢
  cases names with
  | ok p₁ =>
      cases r with
      | ok bz =>
          have hrest := (bzInitInstance_rest (k := k) (p := p₁) daemonize).of_state hinit
          exact ⟨bz, rfl, fun _ => rfl, h.shows.alike hrest, h.acquired⟩
      | error bz => exact h.elim
      | exited => exact h.elim
  | error p₁ =>
      cases hinit
      cases r with
      | ok bz => exact h.elim
      | error bz => exact ⟨bz, rfl, nofun, h.shows, h.acquired⟩
      | exited => exact h.elim
  | exited => cases hinit

theorem Acquired.uses {i : Nat} (h : Acquired bz₀ M₀ bz M) (hi : bz.Uses i) :
    bz₀.Uses i ∨ M₀.next ≤ i := by
  rcases hi with rfl | ⟨m, a, ha, rfl⟩
  · exact Or.inl (Or.inl (by rw [h.prefixDir]))
  · cases hal : bz.alloc m with
    | false => exact Or.inl (Or.inr ⟨m, a, (h.path m hal).symm.trans ha, rfl⟩)
    | true =>
        obtain ⟨i, b, hp, hle, -⟩ := h.block m hal
        cases hp.symm.trans ha
        exact Or.inr hle

/-- What the process does with its strings, in a memory that has them. -/
structure Serves (M : Memory) (bz : Pointers) (p : Proc) : Prop where
  shows : Shows M bz p
  title : ∀ argv0 title s t, IsStr M argv0 s → IsStr M title t → title.block ≠ argv0.block →
    ¬ bz.Uses argv0.block → wp (bzSetproctitle argv0 title)
      (fun _ M' => IsStr M' argv0 (procTitle s t) ∧ Blocks.Only argv0.block M M' ∧
        bz.Kept M M') M
  logPath : ∀ ok name log ext s, ok .malloc = true → IsStr M name s →
    IsStr M log (bytes ['/', 'l', 'o', 'g', '/']) → IsStr M ext (bytes ['.', 'l', 'o', 'g']) →
    wp (taskLogPathMem ok bz.prefixDir name log ext) (fun a M' => ∃ i, a = some ⟨i, 0⟩ ∧
      IsStr M' ⟨i, 0⟩ (taskLogPath p.prefixDir s) ∧
      M'.get i = some ⟨(taskLogPath p.prefixDir s ++ [0]).map some, true⟩ ∧
      Blocks.New M M' ∧ bz.Kept M M') M
  postRun : wp (bzPostRunStrings bz) (fun bz' M' =>
    (∀ m, bz.alloc m = true → bz'.path m = none) ∧ (∀ i, bz.Owns i → M'.get i = none) ∧
      ∀ i, ¬ bz.Owns i → M'.get i = M.get i) M

theorem Serves.of_kept (h : Shows M bz p) (hacq : Acquired bz₀ M₀ bz M) (hkept : bz.Kept M M') :
    Serves M' bz p where
  shows := h.kept hkept
  title argv0 title s t hs ht hne huses := by
    refine wp_mono (bzSetproctitle_spec hs ht hne) fun _ M₁ ⟨hs₁, honly₁⟩ =>
      ⟨hs₁, honly₁, fun i hi => honly₁.get i ?_⟩
    rintro rfl
    exact huses hi
  logPath ok name log ext s hok hname hlog hext := by
    have hM' := h.kept hkept
    refine wp_mono (taskLogPathMem_spec hM'.prefixDir hname hlog hext hok) ?_
    rintro _ M₁ ⟨rfl, hstr, hget, hnew⟩
    exact ⟨_, rfl, hstr, hget, hnew, fun i hi => hnew.get i (Nat.ne_of_lt (hM'.uses_lt hi))⟩
  postRun := by
    have hblock : ∀ m, bz.alloc m = true → ∃ i b, bz.path m = some ⟨i, 0⟩ ∧
        M'.get i = some ⟨b, true⟩ := by
      intro m hm
      obtain ⟨i, b, hp, -, hget⟩ := hacq.block m hm
      exact ⟨i, b, hp, (hkept i (Or.inr ⟨m, _, hp, rfl⟩)).trans hget⟩
    have hall : ∀ m : Member, m ∈ [Member.pidFile, .confFile, .logFile] := fun m => by
      cases m <;> decide
    refine wp_mono (bzPostRunStrings_spec hblock hacq.inj) fun bz' M₁ h₁ => ⟨fun m hm => ?_,
      fun i hi => ?_, fun i hi => ?_⟩
    · exact h₁.null m (hall m) hm
    · obtain ⟨m, hm, hp⟩ := hi
      exact h₁.freed m (hall m) hm i hp
    · exact h₁.others i fun m _ hm hp => hi ⟨m, hm, hp⟩

end

/-- **The strings of the instance.** Whatever fails, `bz_init_instance` builds its names
within the blocks that it allocates and changes no other; they are what the functions on
values say. In every later memory that has these strings, `bz_setproctitle` and the logs
of the tasks keep them, and `bz_post_run` frees those blocks, once each, and no others. -/
theorem instance_strings {k : Kernel} {daemonize : Bool} {s : Start} {p : Proc} {M₀ : Memory}
    {bz₀ : Pointers} (hshows : Shows M₀ bz₀ s.proc)
    (hinit : (bzInitInstance k daemonize s.proc).state? = some p) :
    wp (bzInitStrings k bz₀) (fun r M => ∃ bz, r.state? = some bz ∧
      (bzInitInstance k daemonize s.proc = .ok p → r = .ok bz) ∧ Acquired bz₀ M₀ bz M ∧
      (∀ i, bz.Uses i → bz₀.Uses i ∨ M₀.next ≤ i) ∧
      ∀ M', bz.Kept M M' → Serves M' bz p) M₀ := by
  refine wp_mono (bzInitStrings_spec hshows hinit) ?_
  rintro r M ⟨bz, hr, hok, hM, hacq⟩
  exact ⟨bz, hr, hok, hacq, fun i hi => hacq.uses hi, fun M' hkept => .of_kept hM hacq hkept⟩

/-- Relative names, as in the defaults. -/
def relativeStart : Start :=
  { secondStart with
    path := fun m => [if m = .logFile then 108 else if m = .confFile then 99 else 112] }

/-- Its strings, in one block. -/
def relativeMemory : Memory where
  get i := if i = 0 then some ⟨[47, 0, 108, 0, 99, 0, 112, 0].map some, false⟩ else none
  next := 1
  fresh i hi := if_neg (by omega)

def relativePointers : Pointers where
  prefixDir := ⟨0, 0⟩
  path m := some ⟨0, if m = .logFile then 2 else if m = .confFile then 4 else 6⟩
  alloc _ := false

theorem instance_strings_relative :
    wp (bzInitStrings noProcess relativePointers) (fun r M => ∃ bz a, r = .ok bz ∧
      bz.path .confFile = some a ∧ IsStr M a [47, 99]) relativeMemory := by
  have hshows : Shows relativeMemory relativePointers relativeStart.proc := by
    refine ⟨⟨⟨_, rfl, _, rfl⟩, by decide⟩, fun m => ⟨_, rfl, ?_⟩, rfl⟩
    cases m with
    | logFile => exact ⟨⟨_, rfl, _, rfl⟩, by decide⟩
    | confFile => exact ⟨⟨_, rfl, _, rfl⟩, by decide⟩
    | pidFile => exact ⟨⟨_, rfl, _, rfl⟩, by decide⟩
  obtain ⟨p, hp, hpath⟩ : ∃ p, bzInitInstance noProcess false relativeStart.proc = .ok p ∧
      p.path .confFile = [47, 99] := ⟨_, rfl, rfl⟩
  refine wp_mono (instance_strings hshows (congrArg Exit.state? hp)) ?_
  rintro r M ⟨bz, -, hok, -, -, hserves⟩
  obtain ⟨a, ha, hstr⟩ := (hserves M fun _ _ => rfl).shows.path .confFile
  rw [hpath] at hstr
  exact ⟨bz, a, hok hp, ha, hstr⟩

end Bitzer
