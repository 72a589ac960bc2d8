import Mathlib.Logic.Function.Basic
import Bitzer.Lib.ColoredTree
import Bitzer.Lib.Wp

/-!
# The intrusive red-black tree

`rbtree.h` and `rbtree.c` over an explicit memory. `α` is the type of node
addresses; a node that was not allocated, a field that was never set and a
`NULL` pointer fault when they are read, so a program that returns followed
valid links only.

The two mirror-image halves of the source's rotations and fix-up loops are one
definition with the side as a parameter; each keeps its name in the source.
-/

namespace Bitzer

open Lib

/-- A C pointer to a node. -/
inductive Ptr (α : Type) where
  | null
  | ref (a : α)
  deriving DecidableEq, Repr

/-- `struct rbtree_node_s`. A field is `none` as long as it is indeterminate. -/
structure RbtreeNode (α : Type) where
  left : Option (Ptr α) := none
  right : Option (Ptr α) := none
  parent : Option (Ptr α) := none
  key : Option UInt64 := none
  color : Option Color := none

/-- `struct rbtree_s`. -/
structure Rbtree (α : Type) where
  root : Ptr α
  sentinel : Ptr α

/-- The nodes that are allocated and the tree's head. -/
structure Mem (α : Type) where
  node : α → Option (RbtreeNode α)
  tree : Rbtree α

variable {α : Type}

/-- The link of a node on a side. -/
def RbtreeNode.link (n : RbtreeNode α) : Side → Option (Ptr α)
  | .left => n.left
  | .right => n.right

def RbtreeNode.setLink (n : RbtreeNode α) : Side → Ptr α → RbtreeNode α
  | .left, p => { n with left := some p }
  | .right, p => { n with right := some p }

def RbtreeNode.setParent (n : RbtreeNode α) (p : Ptr α) : RbtreeNode α :=
  { n with parent := some p }

def RbtreeNode.setKey (n : RbtreeNode α) (k : UInt64) : RbtreeNode α :=
  { n with key := some k }

def RbtreeNode.setColor (n : RbtreeNode α) (c : Color) : RbtreeNode α :=
  { n with color := some c }

/-- Read a field through a pointer. -/
def load {β : Type} (field : RbtreeNode α → Option β) : Ptr α → Prog (Mem α) β
  | .null => fun _ => none
  | .ref a => fun m => ((m.node a).bind field).map (·, m)

def root : Prog (Mem α) (Ptr α) := fun m => some (m.tree.root, m)

def sentinel : Prog (Mem α) (Ptr α) := fun m => some (m.tree.sentinel, m)

def setRoot (p : Ptr α) : Prog (Mem α) Unit :=
  fun m => some ((), { m with tree := { m.tree with root := p } })

def child (d : Side) : Ptr α → Prog (Mem α) (Ptr α) := load (·.link d)

def parent : Ptr α → Prog (Mem α) (Ptr α) := load (·.parent)

def key : Ptr α → Prog (Mem α) UInt64 := load (·.key)

def color : Ptr α → Prog (Mem α) Color := load (·.color)

/-- `rbtree_is_red`. -/
def rbtreeIsRed (p : Ptr α) : Prog (Mem α) Bool := do
  return (← color p) == .red

/-- `rbtree_is_black`. -/
def rbtreeIsBlack (p : Ptr α) : Prog (Mem α) Bool := do
  return !(← rbtreeIsRed p)

section
variable [DecidableEq α]

/-- Overwrite a node. -/
def Mem.set (m : Mem α) (a : α) (n : RbtreeNode α) : Mem α :=
  { m with node := Function.update m.node a (some n) }

/-- Write to a node through a pointer. -/
def store (write : RbtreeNode α → RbtreeNode α) : Ptr α → Prog (Mem α) Unit
  | .null => fun _ => none
  | .ref a => fun m => (m.node a).map fun n => ((), m.set a (write n))

def setChild (d : Side) (p q : Ptr α) : Prog (Mem α) Unit := store (·.setLink d q) p

def setParent (p q : Ptr α) : Prog (Mem α) Unit := store (·.setParent q) p

def setKey (p : Ptr α) (k : UInt64) : Prog (Mem α) Unit := store (·.setKey k) p

def setColor (p : Ptr α) (c : Color) : Prog (Mem α) Unit := store (·.setColor c) p

/-- `rbtree_red`. -/
def rbtreeRed (p : Ptr α) : Prog (Mem α) Unit := setColor p .red

/-- `rbtree_black`. -/
def rbtreeBlack (p : Ptr α) : Prog (Mem α) Unit := setColor p .black

/-- `rbtree_copy_color`. -/
def rbtreeCopyColor (n1 n2 : Ptr α) : Prog (Mem α) Unit := do
  setColor n1 (← color n2)

/-- `rbtree_node_init`: the color is left as it is. -/
def rbtreeNodeInit (p : Ptr α) : Prog (Mem α) Unit := do
  setChild .left p .null
  setChild .right p .null
  setParent p .null
  setKey p 0

/-- `rbtree_init`. -/
def rbtreeInit (s : Ptr α) : Prog (Mem α) Unit := do
  rbtreeNodeInit s
  rbtreeBlack s
  fun m => some ((), { m with tree := { root := s, sentinel := s } })

/-- `rbtree_node_min`: follow left links. -/
def rbtreeNodeMin : Nat → Ptr α → Prog (Mem α) (Ptr α)
  | 0, _ => fun _ => none
  | fuel + 1, node => do
      if (← child .left node) ≠ (← sentinel) then
        rbtreeNodeMin fuel (← child .left node)
      else
        return node

/-- Where `node` hung, `temp` hangs now: the root, or the link of `node`'s
parent that led to `node`. Side `d` is the one the source tests. -/
def relink (d : Side) (node temp : Ptr α) : Prog (Mem α) Unit := do
  if node = (← root) then
    setRoot temp
  else if node = (← child d (← parent node)) then
    setChild d (← parent node) temp
  else
    setChild d.other (← parent node) temp

/-- Set the parent of `p` unless `p` is the sentinel. -/
def adopt (p q : Ptr α) : Prog (Mem α) Unit := do
  if p ≠ (← sentinel) then
    setParent p q

/-- The rotation that moves `node` down to side `d`. -/
def rbtreeRotate (d : Side) (node : Ptr α) : Prog (Mem α) Unit := do
  let temp ← child d.other node
  setChild d.other node (← child d temp)
  adopt (← child d temp) node
  setParent temp (← parent node)
  relink d node temp
  setChild d temp node
  setParent node temp

/-- `rbtree_left_rotate`. -/
def rbtreeLeftRotate (node : Ptr α) : Prog (Mem α) Unit := rbtreeRotate .left node

/-- `rbtree_right_rotate`. -/
def rbtreeRightRotate (node : Ptr α) : Prog (Mem α) Unit := rbtreeRotate .right node

/-! ## Insertion -/

/-- The descent of `rbtree_insert`: the node to hang `node` under and the side
(`p` in the source is the address of that link). -/
def insertDescend (node : Ptr α) : Nat → Ptr α → Prog (Mem α) (Ptr α × Side)
  | 0, _ => fun _ => none
  | fuel + 1, temp => do
      let d := if (← key node) < (← key temp) then Side.left else Side.right
      let p ← child d temp
      if p = (← sentinel) then
        return (temp, d)
      else
        insertDescend node fuel p

/-- `if (node == node->parent->right)` and its mirror image: the inner rotation
of the re-balance loop, and the node the loop goes on with. -/
def insertStraighten (d : Side) (node : Ptr α) : Prog (Mem α) (Ptr α) := do
  if node = (← child d.other (← parent node)) then
    let node ← parent node
    rbtreeRotate d node
    return node
  else
    return node

/-- The body of the re-balance loop where `node->parent` is the child on side
`d`; it returns the next `node`. -/
def insertStep (d : Side) (node : Ptr α) : Prog (Mem α) (Ptr α) := do
  let temp ← child d.other (← parent (← parent node))
  if ← rbtreeIsRed temp then
    rbtreeBlack (← parent node)
    rbtreeBlack temp
    rbtreeRed (← parent (← parent node))
    parent (← parent node)
  else
    let node ← insertStraighten d node
    rbtreeBlack (← parent node)
    rbtreeRed (← parent (← parent node))
    rbtreeRotate d.other (← parent (← parent node))
    return node

/-- The re-balance loop of `rbtree_insert`. -/
def insertRebalance : Nat → Ptr α → Prog (Mem α) Unit
  | 0, _ => fun _ => none
  | fuel + 1, node => do
      if node ≠ (← root) then
        if ← rbtreeIsRed (← parent node) then
          if (← parent node) = (← child .left (← parent (← parent node))) then
            insertRebalance fuel (← insertStep .left node)
          else
            insertRebalance fuel (← insertStep .right node)

/-- The new node hangs at the link that was found, red and without children. -/
def insertAttach (temp : Ptr α) (d : Side) (node : Ptr α) : Prog (Mem α) Unit := do
  setChild d temp node
  setParent node temp
  setChild .left node (← sentinel)
  setChild .right node (← sentinel)
  rbtreeRed node

/-- `rbtree_insert`. -/
def rbtreeInsert (fuel : Nat) (node : Ptr α) : Prog (Mem α) Unit := do
  if (← root) = (← sentinel) then
    setParent node .null
    setChild .left node (← sentinel)
    setChild .right node (← sentinel)
    rbtreeBlack node
    setRoot node
  else
    let (temp, d) ← insertDescend node fuel (← root)
    insertAttach temp d node
    insertRebalance fuel node
    rbtreeBlack (← root)

/-! ## Deletion -/

/-- The node that leaves its place in the tree, and the one that takes it. -/
def deleteSubst (fuel : Nat) (node : Ptr α) : Prog (Mem α) (Ptr α × Ptr α) := do
  if (← child .left node) = (← sentinel) then
    return (node, ← child .right node)
  else if (← child .right node) = (← sentinel) then
    return (node, ← child .left node)
  else
    let subst ← rbtreeNodeMin fuel (← child .right node)
    return (subst, ← child .right subst)

/-- Take `subst` out: the link to it leads to `temp`. -/
def deleteUnlink (subst temp : Ptr α) : Prog (Mem α) Unit := do
  if subst = (← child .left (← parent subst)) then
    setChild .left (← parent subst) temp
  else
    setChild .right (← parent subst) temp

/-- `subst` takes the links, the colour and the place of `node`. -/
def deleteReplace (node subst : Ptr α) : Prog (Mem α) Unit := do
  setChild .left subst (← child .left node)
  setChild .right subst (← child .right node)
  setParent subst (← parent node)
  rbtreeCopyColor subst node
  relink .left node subst
  adopt (← child .left subst) subst
  adopt (← child .right subst) subst

/-- The parent link of `temp`, and the replacement of `node` unless it is
`subst` itself. -/
def deleteSplice (node subst temp : Ptr α) : Prog (Mem α) Unit := do
  if subst = node then
    setParent temp (← parent subst)
  else
    if (← parent subst) = node then
      setParent temp subst
    else
      setParent temp (← parent subst)
    deleteReplace node subst

/-- The inner rotation of the delete fix-up where `temp` is the child on side
`d`, when the outer child of the sibling `w` is black. -/
def deleteStraighten (d : Side) (temp w : Ptr α) : Prog (Mem α) (Ptr α) := do
  if ← rbtreeIsBlack (← child d.other w) then
    rbtreeBlack (← child d w)
    rbtreeRed w
    rbtreeRotate d.other w
    child d.other (← parent temp)
  else
    return w

/-- The case of a sibling `w` with a red child: the rotations that end the
fix-up; the next `temp` is the root. -/
def deleteRotate (d : Side) (temp w : Ptr α) : Prog (Mem α) (Ptr α) := do
  let w ← deleteStraighten d temp w
  rbtreeCopyColor w (← parent temp)
  rbtreeBlack (← parent temp)
  rbtreeBlack (← child d.other w)
  rbtreeRotate d (← parent temp)
  root

/-- The case of a red sibling `w`: rotate it up and take the new sibling. -/
def deleteRedSibling (d : Side) (temp w : Ptr α) : Prog (Mem α) (Ptr α) := do
  if ← rbtreeIsRed w then
    rbtreeBlack w
    rbtreeRed (← parent temp)
    rbtreeRotate d (← parent temp)
    child d.other (← parent temp)
  else
    return w

/-- `rbtree_is_black(w->left) && rbtree_is_black(w->right)`. -/
def bothBlack (w : Ptr α) : Prog (Mem α) Bool := do
  if ← rbtreeIsBlack (← child .left w) then
    rbtreeIsBlack (← child .right w)
  else
    return false

/-- The body of the delete fix-up loop where `temp` is the child on side `d`;
it returns the next `temp`. -/
def deleteStep (d : Side) (temp : Ptr α) : Prog (Mem α) (Ptr α) := do
  let w ← deleteRedSibling d temp (← child d.other (← parent temp))
  if ← bothBlack w then
    rbtreeRed w
    parent temp
  else
    deleteRotate d temp w

/-- The delete fix-up loop, with the `rbtree_black(temp)` after it. -/
def deleteFixup : Nat → Ptr α → Prog (Mem α) Unit
  | 0, _ => fun _ => none
  | fuel + 1, temp => do
      if temp ≠ (← root) then
        if ← rbtreeIsBlack temp then
          if temp = (← child .left (← parent temp)) then
            deleteFixup fuel (← deleteStep .left temp)
          else
            deleteFixup fuel (← deleteStep .right temp)
        else
          rbtreeBlack temp
      else
        rbtreeBlack temp

/-- `rbtree_delete`. -/
def rbtreeDelete (fuel : Nat) (node : Ptr α) : Prog (Mem α) Unit := do
  let (subst, temp) ← deleteSubst fuel node
  if subst = (← root) then
    setRoot temp
    rbtreeBlack temp
    rbtreeNodeInit node
  else
    let red ← rbtreeIsRed subst
    deleteUnlink subst temp
    deleteSplice node subst temp
    rbtreeNodeInit node
    if !red then
      deleteFixup fuel temp

end

end Bitzer
