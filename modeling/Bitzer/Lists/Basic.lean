import Bitzer.Lib.Ring
import Bitzer.Lib.Wp

/-!
# The intrusive list

`list.h` over an explicit memory. `α` is the type of the addresses of list
heads; one that was not allocated, and a link that was never set, fault when
they are read. The loops are macros: they run over any state that has such a
memory.
-/

namespace Bitzer

open Lib

/-- `struct list_head`. A link is `none` as long as it is indeterminate. -/
structure ListHead (α : Type) where
  next : Option α := none
  prev : Option α := none
  deriving DecidableEq

/-- The list heads that are allocated. -/
abbrev ListMem (α : Type) := α → Option (ListHead α)

variable {α σ : Type}

/-- The links that were set. -/
def ListMem.links (m : ListMem α) : Links α where
  next x := (m x).bind ListHead.next
  prev x := (m x).bind ListHead.prev

/-- `p->next`. -/
def listNext (p : α) : Prog (ListMem α) α := fun m => (m.links.next p).map (·, m)

/-- `p->prev`. -/
def listPrev (p : α) : Prog (ListMem α) α := fun m => (m.links.prev p).map (·, m)

section
variable [DecidableEq α]

def ListMem.setNext (m : ListMem α) (p q : α) : ListMem α :=
  Function.update m p ((m p).map fun n => { n with next := some q })

def ListMem.setPrev (m : ListMem α) (p q : α) : ListMem α :=
  Function.update m p ((m p).map fun n => { n with prev := some q })

/-- `p->next = q`. -/
def setListNext (p q : α) : Prog (ListMem α) Unit :=
  fun m => if (m p).isSome then some ((), m.setNext p q) else none

/-- `p->prev = q`. -/
def setListPrev (p q : α) : Prog (ListMem α) Unit :=
  fun m => if (m p).isSome then some ((), m.setPrev p q) else none

/-- `INIT_LIST_HEAD`. -/
def initListHead (ptr : α) : Prog (ListMem α) Unit := do
  setListNext ptr ptr
  setListPrev ptr ptr

/-- `__list_add`. -/
def listAddBetween (new prev next : α) : Prog (ListMem α) Unit := do
  setListPrev next new
  setListNext new next
  setListPrev new prev
  setListNext prev new

/-- `list_add`. -/
def listAdd (new head : α) : Prog (ListMem α) Unit := do
  listAddBetween new head (← listNext head)

/-- `list_add_tail`. -/
def listAddTail (new head : α) : Prog (ListMem α) Unit := do
  listAddBetween new (← listPrev head) head

/-- `__list_del`. -/
def listDelBetween (prev next : α) : Prog (ListMem α) Unit := do
  setListPrev next prev
  setListNext prev next

/-- `list_del`: the links of the entry are left as they are. -/
def listDel (entry : α) : Prog (ListMem α) Unit := do
  listDelBetween (← listPrev entry) (← listNext entry)

/-- `list_del_init`. -/
def listDelInit (entry : α) : Prog (ListMem α) Unit := do
  listDelBetween (← listPrev entry) (← listNext entry)
  initListHead entry

/-- `list_empty`. -/
def listEmpty (head : α) : Prog (ListMem α) Bool := do
  return (← listNext head) == head

/-- `list_splice`: the links of `list` are left as they are. -/
def listSplice (list head : α) : Prog (ListMem α) Unit := do
  let first ← listNext list
  if first ≠ list then
    let last ← listPrev list
    let place ← listNext head
    setListPrev first head
    setListNext head first
    setListNext last place
    setListPrev place last

/-- `list_first_entry_or_null`, before the change to the enclosing type. -/
def listFirstEntryOrNull (ptr : α) : Prog (ListMem α) (Option α) := do
  if !(← listEmpty ptr) then
    return some (← listNext ptr)
  else
    return none

end

/-! ## The loops -/

/-- `p->next` in a state that has a memory. -/
def nextIn (mem : σ → ListMem α) (p : α) : Prog σ α :=
  fun s => ((mem s).links.next p).map (·, s)

variable [DecidableEq α] (mem : σ → ListMem α) (head : α) (body : α → Prog σ Unit)

/-- `list_for_each` from `pos` on. -/
def listForEachFrom : Nat → α → Prog σ Unit
  | 0, _ => fun _ => none
  | fuel + 1, pos => do
      if pos ≠ head then
        body pos
        listForEachFrom fuel (← nextIn mem pos)

/-- `list_for_each`. -/
def listForEach (fuel : Nat) : Prog σ Unit := do
  listForEachFrom mem head body fuel (← nextIn mem head)

/-- `list_for_each_safe` from `pos` on, with `n` set. -/
def listForEachSafeFrom : Nat → α → α → Prog σ Unit
  | 0, _, _ => fun _ => none
  | fuel + 1, pos, n => do
      if pos ≠ head then
        body pos
        listForEachSafeFrom fuel n (← nextIn mem n)

/-- `list_for_each_safe`. -/
def listForEachSafe (fuel : Nat) : Prog σ Unit := do
  let pos ← nextIn mem head
  listForEachSafeFrom mem head body fuel pos (← nextIn mem pos)

end Bitzer
