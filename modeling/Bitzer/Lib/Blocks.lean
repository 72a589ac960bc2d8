import Bitzer.Lib.Buffer
import Bitzer.Lib.Wp
import Mathlib.Data.List.TakeDrop

/-!
# Memory of blocks

A memory of blocks in which an address is a position in a block, with `malloc` and
`free` and the functions of C on strings that a terminator ends. A load outside of a
block or from a slot that was never written faults, a store beyond the end does, and so
does a `free` of what `malloc` has not returned. Every operation has a rule that says
what the block that it changes holds afterwards; all other blocks are as they were.
-/

namespace Lib

/-- A position in a block, or before or behind it. -/
structure Addr where
  block : Nat
  off : Int
  deriving DecidableEq, Repr

def Addr.add (a : Addr) (n : Int) : Addr := ⟨a.block, a.off + n⟩

/-- `heap` where `malloc` has returned it. -/
structure Block (α : Type) where
  slots : Buffer α
  heap : Bool

/-- The blocks that are there; those from `next` on have never been. -/
structure Blocks (α : Type) where
  get : Nat → Option (Block α)
  next : Nat
  fresh : ∀ i, next ≤ i → get i = none

variable {α : Type}

namespace Buffer

/-- The number of elements before the terminator. -/
def strlen [DecidableEq α] (nul : α) : Buffer α → Option Nat
  | [] => none
  | none :: _ => none
  | some x :: b => if x = nul then some 0 else (strlen nul b).map (· + 1)

variable {b : Buffer α} {nul : α} {s xs ys : List α}

theorem Starts.strlen [DecidableEq α] (h : b.Starts (s ++ [nul])) (hs : nul ∉ s) :
    b.strlen nul = some s.length := by
  obtain ⟨rest, rfl⟩ := h
  induction s with
  | nil => exact if_pos rfl
  | cons x s ih =>
      obtain ⟨hne, hs⟩ := not_or.mp (mt List.mem_cons.mpr hs)
      exact (if_neg (Ne.symm hne)).trans (congrArg (Option.map (· + 1)) (ih hs))

theorem Starts.drop (h : b.Starts (xs ++ ys)) : Starts (b.drop xs.length) ys := by
  obtain ⟨rest, rfl⟩ := h
  refine ⟨rest, ?_⟩
  rw [List.map_append, List.append_assoc, List.drop_left' (List.length_map some)]

/-- A store over what is there. -/
theorem write_over {pre mid post : Buffer α} (h : mid.length = ys.length) :
    Buffer.write ys pre.length (pre ++ mid ++ post) = some (pre ++ ys.map some ++ post) := by
  induction ys generalizing pre mid with
  | nil =>
      rw [List.length_eq_zero_iff.mp h]
      rfl
  | cons y ys ih =>
      obtain ⟨x, mid, rfl⟩ := List.exists_cons_of_length_eq_add_one h
      have hlt : pre.length < (pre ++ x :: mid ++ post).length := by simp
      have hset : (pre ++ x :: mid ++ post).set pre.length (some y) =
          (pre ++ [some y]) ++ mid ++ post := by simp
      have hlen : pre.length + 1 = (pre ++ [some y]).length := by simp
      refine (if_pos hlt).trans ?_
      rw [hset, hlen, ih (Nat.succ.inj h)]
      simp

end Buffer

namespace Blocks

/-- What lies from an address on. -/
def slotsAt (m : Blocks α) (a : Addr) : Option (Buffer α) :=
  (m.get a.block).bind fun b => if 0 ≤ a.off then some (b.slots.drop a.off.toNat) else none

/-- Other contents for a block. -/
def withSlots (m : Blocks α) (i : Nat) (b : Buffer α) : Blocks α where
  get := Function.update m.get i ((m.get i).map fun c => { c with slots := b })
  next := m.next
  fresh j hj := by
    rw [Function.update_apply]
    split
    · rename_i hji
      rw [← hji, m.fresh j hj]
      rfl
    · exact m.fresh j hj

/-- A new block behind all others. -/
def push (m : Blocks α) (b : Block α) : Blocks α where
  get := Function.update m.get m.next (some b)
  next := m.next + 1
  fresh j hj := by
    rw [Function.update_of_ne (by omega)]
    exact m.fresh j (by omega)

def remove (m : Blocks α) (i : Nat) : Blocks α where
  get := Function.update m.get i none
  next := m.next
  fresh j hj := by
    rw [Function.update_apply]
    split
    · rfl
    · exact m.fresh j hj

/-! ## The operations -/

def read (a : Addr) (n : Nat) : Prog (Blocks α) (List α) := fun m =>
  (m.slotsAt a).bind fun b => (b.read n).map fun xs => (xs, m)

def load (a : Addr) : Prog (Blocks α) α := fun m =>
  match m.slotsAt a with
  | some (some x :: _) => some (x, m)
  | _ => none

def write (a : Addr) (xs : List α) : Prog (Blocks α) Unit := fun m =>
  (m.get a.block).bind fun b =>
    if 0 ≤ a.off then
      (b.slots.write xs a.off.toNat).map fun s => ((), m.withSlots a.block s)
    else none

def store (a : Addr) (x : α) : Prog (Blocks α) Unit := write a [x]

/-- A `malloc` that succeeds. -/
def malloc (n : Nat) : Prog (Blocks α) Addr := fun m =>
  some (⟨m.next, 0⟩, m.push ⟨List.replicate n none, true⟩)

def free (a : Addr) : Prog (Blocks α) Unit := fun m =>
  (m.get a.block).bind fun b =>
    if b.heap ∧ a.off = 0 then some ((), m.remove a.block) else none

def memcpy (dst src : Addr) (n : Nat) : Prog (Blocks α) Unit := do
  write dst (← read src n)

section
variable [DecidableEq α] (nul : α)

def strlen (a : Addr) : Prog (Blocks α) Nat := fun m =>
  (m.slotsAt a).bind fun b => (b.strlen nul).map fun n => (n, m)

def strcpy (dst src : Addr) : Prog (Blocks α) Unit := do
  memcpy dst src ((← strlen nul src) + 1)

def strcat (dst src : Addr) : Prog (Blocks α) Unit := do
  strcpy nul (dst.add (← strlen nul dst)) src

end

/-! ## What the memory holds -/

/-- The elements `xs` lie at `a`. -/
def Has (m : Blocks α) (a : Addr) (xs : List α) : Prop := ∃ b, m.slotsAt a = some b ∧ b.Starts xs

/-- The string `s` lies at `a`. -/
structure IsString (nul : α) (m : Blocks α) (a : Addr) (s : List α) : Prop where
  has : m.Has a (s ++ [nul])
  nul_notMem : nul ∉ s

/-- The block was returned by `malloc n`, and `xs` was stored at its beginning. -/
def Filled (m : Blocks α) (i n : Nat) (xs : List α) : Prop :=
  ∃ b, m.get i = some ⟨b, true⟩ ∧ b.length = n ∧ b.Starts xs

/-- The memories differ in one block only. -/
structure Only (i : Nat) (m m' : Blocks α) : Prop where
  next : m'.next = m.next
  get : ∀ j, j ≠ i → m'.get j = m.get j

/-- One block was allocated, and no other changed. -/
structure New (m m' : Blocks α) : Prop where
  next : m'.next = m.next + 1
  get : ∀ j, j ≠ m.next → m'.get j = m.get j

variable {m m' m'' : Blocks α} {a : Addr} {i n : Nat} {x nul : α} {s t xs ys : List α}
  {b : Buffer α} {heap : Bool}

theorem Only.trans (h : Only i m m') (h' : Only i m' m'') : Only i m m'' where
  next := h'.next.trans h.next
  get j hj := (h'.get j hj).trans (h.get j hj)

theorem lt_next (h : m.get i ≠ none) : i < m.next := by
  by_contra hi
  exact h (m.fresh i (by omega))

theorem slotsAt_congr (h : m'.get a.block = m.get a.block) : m'.slotsAt a = m.slotsAt a := by
  unfold slotsAt
  rw [h]

theorem Has.congr (h : m.Has a xs) (hget : m'.get a.block = m.get a.block) : m'.Has a xs := by
  obtain ⟨b, hb, hs⟩ := h
  exact ⟨b, (slotsAt_congr hget).trans hb, hs⟩

theorem IsString.congr (h : IsString nul m a s) (hget : m'.get a.block = m.get a.block) :
    IsString nul m' a s :=
  ⟨h.has.congr hget, h.nul_notMem⟩

theorem Has.get_ne (h : m.Has a xs) : m.get a.block ≠ none := by
  obtain ⟨b, hb, -⟩ := h
  intro hnone
  rw [slotsAt, hnone] at hb
  cases hb

/-- It is in one of the blocks that have been there. -/
theorem Has.lt_next (h : m.Has a xs) : a.block < m.next := Blocks.lt_next h.get_ne

theorem slotsAt_zero (h : m.get i = some ⟨b, heap⟩) : m.slotsAt ⟨i, 0⟩ = some b := by
  unfold slotsAt
  rw [h]
  exact congrArg some (List.drop_zero (l := b))

theorem Filled.congr (h : m.Filled i n xs) (hget : m'.get i = m.get i) : m'.Filled i n xs := by
  obtain ⟨b, hb, hrest⟩ := h
  exact ⟨b, hget.trans hb, hrest⟩

theorem Filled.has (h : m.Filled i n xs) : m.Has ⟨i, 0⟩ xs := by
  obtain ⟨b, hb, -, hs⟩ := h
  exact ⟨b, slotsAt_zero hb, hs⟩

theorem Filled.of_append (h : m.Filled i n (xs ++ ys)) : m.Filled i n xs := by
  obtain ⟨b, hb, hn, hs⟩ := h
  exact ⟨b, hb, hn, hs.of_append⟩

/-- A block that is filled to its end. -/
theorem Filled.full (h : m.Filled i n xs) (hn : n = xs.length) :
    m.get i = some ⟨xs.map some, true⟩ := by
  obtain ⟨b, hb, hlen, rest, rfl⟩ := h
  rw [List.length_append, List.length_map] at hlen
  have hnil : rest = [] := List.length_eq_zero_iff.mp (by omega)
  rw [hb, hnil, List.append_nil]

theorem Has.of_append (h : m.Has a (xs ++ ys)) : m.Has a xs := by
  obtain ⟨b, hb, hs⟩ := h
  exact ⟨b, hb, hs.of_append⟩

theorem Has.add (h : m.Has a (xs ++ ys)) : m.Has (a.add xs.length) ys := by
  obtain ⟨b, hb, hs⟩ := h
  unfold slotsAt at hb
  obtain ⟨c, hc, hoff⟩ := Option.bind_eq_some_iff.mp hb
  split at hoff
  · rename_i h0
    cases hoff
    have hto : (a.off + xs.length).toNat = a.off.toNat + xs.length := by omega
    have h1 : 0 ≤ a.off + xs.length := by omega
    refine ⟨(c.slots.drop a.off.toNat).drop xs.length, ?_, hs.drop⟩
    show (m.get a.block).bind (fun b => if 0 ≤ a.off + xs.length then
      some (b.slots.drop (a.off + xs.length).toNat) else none) = _
    rw [hc, List.drop_drop, hto]
    exact if_pos h1
  · cases hoff

/-! ## The rules -/

theorem wp_read (h : m.Has a xs) (Q : List α → Blocks α → Prop) :
    wp (read a xs.length) Q m ↔ Q xs m := by
  obtain ⟨b, hb, hs⟩ := h
  refine wp_of_run ?_
  show (m.slotsAt a).bind _ = _
  rw [hb]
  show (b.read xs.length).map _ = _
  rw [hs.read]
  rfl

theorem wp_load (h : m.Has a (x :: xs)) (Q : α → Blocks α → Prop) : wp (load a) Q m ↔ Q x m := by
  obtain ⟨b, hb, rest, rfl⟩ := h
  refine wp_of_run ?_
  show (match m.slotsAt a with | some (some x :: _) => some (x, m) | _ => none) = _
  rw [hb]
  rfl

theorem wp_strlen [DecidableEq α] (h : IsString nul m a s) (Q : Nat → Blocks α → Prop) :
    wp (strlen nul a) Q m ↔ Q s.length m := by
  obtain ⟨⟨b, hb, hs⟩, hnul⟩ := h
  refine wp_of_run ?_
  show (m.slotsAt a).bind _ = _
  rw [hb]
  show (b.strlen nul).map _ = _
  rw [hs.strlen hnul]
  rfl

theorem only_withSlots : Only i m (m.withSlots i b) where
  next := rfl
  get _ hj := Function.update_of_ne hj ..

theorem withSlots_get {c : Buffer α} (h : m.get i = some ⟨c, heap⟩) :
    (m.withSlots i b).get i = some ⟨b, heap⟩ := by
  show Function.update m.get i _ i = _
  rw [Function.update_self, h]
  rfl

theorem write_run {b' : Buffer α} (hget : m.get a.block = some ⟨b, heap⟩) (h0 : 0 ≤ a.off)
    (hw : b.write xs a.off.toNat = some b') :
    (write a xs).run m = some ((), m.withSlots a.block b') := by
  show (m.get a.block).bind _ = _
  rw [hget]
  refine (if_pos h0).trans ?_
  show (b.write xs a.off.toNat).map _ = _
  rw [hw]
  rfl

/-- A store behind what is there. -/
theorem wp_write (h : m.Filled i n xs) (hfit : xs.length + ys.length ≤ n) :
    wp (write ⟨i, xs.length⟩ ys) (fun _ m' => m'.Filled i n (xs ++ ys) ∧ Only i m m') m := by
  obtain ⟨b, hb, rfl, hs⟩ := h
  obtain ⟨b', hw, hlen, hs'⟩ := hs.write hfit
  have hrun := write_run (a := ⟨i, xs.length⟩) hb (Int.natCast_nonneg _) hw
  exact (wp_of_run hrun).mpr ⟨⟨b', withSlots_get hb, hlen, hs'⟩, only_withSlots⟩

/-- A store over what is there. -/
theorem wp_store {y : α} (h : m.Has a (xs ++ y :: ys)) :
    wp (store (a.add xs.length) x) (fun _ m' => m'.Has a (xs ++ x :: ys) ∧
      Only a.block m m') m := by
  obtain ⟨b, hb, rest, rfl⟩ := h
  unfold slotsAt at hb
  obtain ⟨⟨c, heap⟩, hc, hoff⟩ := Option.bind_eq_some_iff.mp hb
  split at hoff
  · rename_i h0
    have hdrop : c.drop a.off.toNat = (xs ++ y :: ys).map some ++ rest := Option.some.inj hoff
    have hlen : a.off.toNat < c.length := by
      by_contra hge
      rw [List.drop_eq_nil_of_le (by omega)] at hdrop
      simp at hdrop
    -- the slots before the address, and those from it on
    obtain ⟨pre, rfl, hpre⟩ : ∃ pre, c = pre ++ ((xs ++ y :: ys).map some ++ rest) ∧
        pre.length = a.off.toNat := by
      refine ⟨c.take a.off.toNat, ?_, List.length_take_of_le (Nat.le_of_lt hlen)⟩
      rw [← hdrop, List.take_append_drop]
    have hslots : pre ++ ((xs ++ y :: ys).map some ++ rest) =
        (pre ++ xs.map some) ++ [some y] ++ (ys.map some ++ rest) := by simp
    have hto : (a.off + xs.length).toNat = (pre ++ xs.map some).length := by
      rw [List.length_append, List.length_map, hpre]
      omega
    generalize hb' : (pre ++ xs.map some) ++ [x].map some ++ (ys.map some ++ rest) = b'
    have hw : Buffer.write [x] (a.add xs.length).off.toNat
        (pre ++ ((xs ++ y :: ys).map some ++ rest)) = some b' := by
      rw [Addr.add, hto, hslots, Buffer.write_over rfl, hb']
    have hrun : (store (a.add xs.length) x).run m = some ((), m.withSlots a.block b') :=
      write_run hc (show 0 ≤ a.off + xs.length by omega) hw
    refine (wp_of_run hrun).mpr ⟨⟨b'.drop a.off.toNat, ?_, rest, ?_⟩, only_withSlots⟩
    · show ((m.withSlots a.block b').get a.block).bind _ = _
      rw [withSlots_get hc]
      exact if_pos h0
    · rw [← hb', List.append_assoc, List.append_assoc, List.drop_left' hpre]
      simp
  · cases hoff

theorem wp_memcpy {src : Addr} (h : m.Filled i n xs) (hsrc : m.Has src ys)
    (hfit : xs.length + ys.length ≤ n) :
    wp (memcpy ⟨i, xs.length⟩ src ys.length)
      (fun _ m' => m'.Filled i n (xs ++ ys) ∧ Only i m m') m :=
  (wp_bind ..).mpr ((wp_read hsrc _).mpr (wp_write h hfit))

/-- Into a new block. -/
theorem wp_memcpy_zero {src : Addr} (h : m.Filled i n []) (hsrc : m.Has src ys)
    (hfit : ys.length ≤ n) :
    wp (memcpy ⟨i, 0⟩ src ys.length) (fun _ m' => m'.Filled i n ys ∧ Only i m m') m :=
  wp_memcpy h hsrc (by rwa [List.length_nil, Nat.zero_add])

section
variable [DecidableEq α] {src : Addr}

theorem wp_strcpy_at (h : m.Filled i n xs) (hsrc : IsString nul m src s)
    (hfit : xs.length + s.length + 1 ≤ n) :
    wp (strcpy nul ⟨i, xs.length⟩ src)
      (fun _ m' => m'.Filled i n (xs ++ (s ++ [nul])) ∧ Only i m m') m := by
  refine (wp_bind ..).mpr ((wp_strlen hsrc _).mpr ?_)
  have hlen : (s ++ [nul]).length = s.length + 1 := List.length_append
  have hcpy := wp_memcpy h hsrc.has (by omega)
  rwa [hlen] at hcpy

theorem wp_strcpy (h : m.Filled i n []) (hsrc : IsString nul m src s) (hfit : s.length + 1 ≤ n) :
    wp (strcpy nul ⟨i, 0⟩ src) (fun _ m' => m'.Filled i n (s ++ [nul]) ∧ Only i m m') m :=
  wp_strcpy_at h hsrc (by rw [List.length_nil]; omega)

theorem wp_strcat (h : m.Filled i n (t ++ [nul])) (ht : nul ∉ t) (hsrc : IsString nul m src s)
    (hfit : t.length + s.length + 1 ≤ n) :
    wp (strcat nul ⟨i, 0⟩ src)
      (fun _ m' => m'.Filled i n (t ++ s ++ [nul]) ∧ Only i m m') m := by
  refine (wp_bind ..).mpr ((wp_strlen ⟨h.has, ht⟩ _).mpr ?_)
  have hadd : (⟨i, 0⟩ : Addr).add t.length = ⟨i, t.length⟩ := by
    rw [Addr.add, Int.zero_add]
  rw [hadd, List.append_assoc]
  exact wp_strcpy_at h.of_append hsrc hfit

end

theorem new_push (c : Block α) : New m (m.push c) where
  next := rfl
  get _ hj := Function.update_of_ne hj ..

theorem New.only (h : New m m') (h' : Only m.next m' m'') : New m m'' where
  next := h'.next.trans h.next
  get j hj := (h'.get j hj).trans (h.get j hj)

/-- What was there is there. -/
theorem IsString.new (h : IsString nul m a s) (hnew : New m m') : IsString nul m' a s :=
  h.congr (hnew.get _ (Nat.ne_of_lt h.has.lt_next))

theorem wp_malloc (n : Nat) : wp (malloc n)
    (fun a m' => a = ⟨m.next, 0⟩ ∧ m'.Filled m.next n [] ∧ New m m') m :=
  ⟨_, _, rfl, rfl, ⟨_, Function.update_self .., List.length_replicate, .nil _⟩, new_push _⟩

theorem wp_free (h : m.get i = some ⟨b, true⟩) (Q : Unit → Blocks α → Prop) :
    wp (free ⟨i, 0⟩) Q m ↔ Q () (m.remove i) := by
  have hrun : (free ⟨i, 0⟩).run m = some ((), m.remove i) := by
    show (m.get i).bind _ = _
    rw [h]
    rfl
  exact wp_of_run hrun

end Blocks

end Lib
