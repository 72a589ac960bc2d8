import Bitzer.Rbtree.Run

/-!
# The tree operations on related memories

What the operations do depends on nothing but what the memory gives them, and
more fuel changes nothing: `Op.run_sim` for every relation that the reads and
writes of a node respect (`MemSim`). With equality it says that the fuel does
not matter where a call returns; with `Mem.Within` that a call which returns in
a part of the memory does the same in all of it.
-/

namespace Bitzer

open Lib

variable {α : Type} [DecidableEq α]

/-- The reads and writes respect the relation. -/
structure MemSim (R : Mem α → Mem α → Prop) : Prop where
  root : Sim R root root
  sentinel : Sim R sentinel sentinel
  setRoot : ∀ p, Sim R (setRoot p) (setRoot p)
  child : ∀ d p, Sim R (child d p) (child d p)
  parent : ∀ p, Sim R (parent p) (parent p)
  key : ∀ p, Sim R (key p) (key p)
  color : ∀ p, Sim R (color p) (color p)
  setChild : ∀ d p q, Sim R (setChild d p q) (setChild d p q)
  setParent : ∀ p q, Sim R (setParent p q) (setParent p q)
  setKey : ∀ p k, Sim R (setKey p k) (setKey p k)
  setColor : ∀ p c, Sim R (setColor p c) (setColor p c)

theorem MemSim.eq : MemSim (Eq : Mem α → Mem α → Prop) :=
  ⟨.refl _, .refl _, fun _ => .refl _, fun _ _ => .refl _, fun _ => .refl _, fun _ => .refl _,
    fun _ => .refl _, fun _ _ _ => .refl _, fun _ _ => .refl _, fun _ _ => .refl _,
    fun _ _ => .refl _⟩

namespace MemSim

variable {R : Mem α → Mem α → Prop} (hR : MemSim R)
include hR

theorem rbtreeIsRed (p : Ptr α) : Sim R (rbtreeIsRed p) (rbtreeIsRed p) :=
  (hR.color p).bind fun _ => .pure _

theorem rbtreeIsBlack (p : Ptr α) : Sim R (rbtreeIsBlack p) (rbtreeIsBlack p) :=
  (hR.rbtreeIsRed p).bind fun _ => .pure _

theorem rbtreeCopyColor (n1 n2 : Ptr α) : Sim R (rbtreeCopyColor n1 n2) (rbtreeCopyColor n1 n2) :=
  (hR.color n2).bind fun c => hR.setColor n1 c

theorem rbtreeNodeInit (p : Ptr α) : Sim R (rbtreeNodeInit p) (rbtreeNodeInit p) :=
  (hR.setChild .left p .null).bind fun _ => (hR.setChild .right p .null).bind fun _ =>
    (hR.setParent p .null).bind fun _ => hR.setKey p 0

theorem relink (d : Side) (node temp : Ptr α) : Sim R (relink d node temp) (relink d node temp) :=
  hR.root.bind fun _ => .ite (hR.setRoot temp) <|
    (hR.parent node).bind fun p => (hR.child d p).bind fun _ => .ite
      ((hR.parent node).bind fun p => hR.setChild d p temp)
      ((hR.parent node).bind fun p => hR.setChild d.other p temp)

theorem adopt (p q : Ptr α) : Sim R (adopt p q) (adopt p q) :=
  hR.sentinel.bind fun _ => .ite (hR.setParent p q) (.pure _)

theorem rbtreeRotate (d : Side) (node : Ptr α) :
    Sim R (rbtreeRotate d node) (rbtreeRotate d node) :=
  (hR.child d.other node).bind fun temp => (hR.child d temp).bind fun b =>
    (hR.setChild d.other node b).bind fun _ => (hR.child d temp).bind fun b =>
    (hR.adopt b node).bind fun _ => (hR.parent node).bind fun p =>
    (hR.setParent temp p).bind fun _ => (hR.relink d node temp).bind fun _ =>
    (hR.setChild d temp node).bind fun _ => hR.setParent node temp

/-! ## Insertion -/

theorem insertDescend (node : Ptr α) {f f' : Nat} (hf : f ≤ f') (temp : Ptr α) :
    Sim R (insertDescend node f temp) (insertDescend node f' temp) := by
  induction f generalizing f' temp with
  | zero => exact .fault _
  | succ f ih =>
      obtain ⟨f', rfl⟩ := Nat.exists_eq_succ_of_ne_zero (Nat.ne_zero_of_lt hf)
      exact (hR.key node).bind fun _ => (hR.key temp).bind fun _ => (hR.child _ temp).bind fun p =>
        hR.sentinel.bind fun _ => .ite (.pure _) (ih (Nat.le_of_succ_le_succ hf) p)

theorem insertStraighten (d : Side) (node : Ptr α) :
    Sim R (insertStraighten d node) (insertStraighten d node) :=
  (hR.parent node).bind fun p => (hR.child d.other p).bind fun _ => .ite
    ((hR.parent node).bind fun p => (hR.rbtreeRotate d p).bind fun _ => .pure _) (.pure _)

theorem insertStep (d : Side) (node : Ptr α) : Sim R (insertStep d node) (insertStep d node) :=
  (hR.parent node).bind fun p => (hR.parent p).bind fun g => (hR.child d.other g).bind fun temp =>
    (hR.rbtreeIsRed temp).bind fun _ => .ite
      ((hR.parent node).bind fun p => (hR.setColor p .black).bind fun _ =>
        (hR.setColor temp .black).bind fun _ => (hR.parent node).bind fun p =>
        (hR.parent p).bind fun g => (hR.setColor g .red).bind fun _ =>
        (hR.parent node).bind fun p => hR.parent p)
      ((hR.insertStraighten d node).bind fun node => (hR.parent node).bind fun p =>
        (hR.setColor p .black).bind fun _ => (hR.parent node).bind fun p =>
        (hR.parent p).bind fun g => (hR.setColor g .red).bind fun _ =>
        (hR.parent node).bind fun p => (hR.parent p).bind fun g =>
        (hR.rbtreeRotate d.other g).bind fun _ => .pure _)

theorem insertRebalance {f f' : Nat} (hf : f ≤ f') (node : Ptr α) :
    Sim R (insertRebalance f node) (insertRebalance f' node) := by
  induction f generalizing f' node with
  | zero => exact .fault _
  | succ f ih =>
      obtain ⟨f', rfl⟩ := Nat.exists_eq_succ_of_ne_zero (Nat.ne_zero_of_lt hf)
      have ih : ∀ node, Sim R (Bitzer.insertRebalance f node) (Bitzer.insertRebalance f' node) :=
        fun node => ih (Nat.le_of_succ_le_succ hf) node
      exact hR.root.bind fun _ => .ite
        ((hR.parent node).bind fun p => (hR.rbtreeIsRed p).bind fun _ => .ite
          ((hR.parent node).bind fun p => (hR.parent node).bind fun p' =>
            (hR.parent p').bind fun g => (hR.child .left g).bind fun _ => .ite
              ((hR.insertStep .left node).bind ih) ((hR.insertStep .right node).bind ih))
          (.pure _))
        (.pure _)

theorem insertAttach (temp : Ptr α) (d : Side) (node : Ptr α) :
    Sim R (insertAttach temp d node) (insertAttach temp d node) :=
  (hR.setChild d temp node).bind fun _ => (hR.setParent node temp).bind fun _ =>
    hR.sentinel.bind fun s => (hR.setChild .left node s).bind fun _ =>
    hR.sentinel.bind fun s => (hR.setChild .right node s).bind fun _ => hR.setColor node .red

theorem rbtreeInsert {f f' : Nat} (hf : f ≤ f') (node : Ptr α) :
    Sim R (rbtreeInsert f node) (rbtreeInsert f' node) :=
  hR.root.bind fun _ => hR.sentinel.bind fun _ => .ite
    ((hR.setParent node .null).bind fun _ => hR.sentinel.bind fun s =>
      (hR.setChild .left node s).bind fun _ => hR.sentinel.bind fun s =>
      (hR.setChild .right node s).bind fun _ => (hR.setColor node .black).bind fun _ =>
      hR.setRoot node)
    (hR.root.bind fun r => (hR.insertDescend node hf r).bind fun ⟨temp, d⟩ =>
      (hR.insertAttach temp d node).bind fun _ => (hR.insertRebalance hf node).bind fun _ =>
      hR.root.bind fun r => hR.setColor r .black)

/-! ## Deletion -/

theorem rbtreeNodeMin {f f' : Nat} (hf : f ≤ f') (node : Ptr α) :
    Sim R (rbtreeNodeMin f node) (rbtreeNodeMin f' node) := by
  induction f generalizing f' node with
  | zero => exact .fault _
  | succ f ih =>
      obtain ⟨f', rfl⟩ := Nat.exists_eq_succ_of_ne_zero (Nat.ne_zero_of_lt hf)
      exact (hR.child .left node).bind fun _ => hR.sentinel.bind fun _ => .ite
        ((hR.child .left node).bind fun l => ih (Nat.le_of_succ_le_succ hf) l) (.pure _)

theorem deleteSubst {f f' : Nat} (hf : f ≤ f') (node : Ptr α) :
    Sim R (deleteSubst f node) (deleteSubst f' node) :=
  (hR.child .left node).bind fun _ => hR.sentinel.bind fun _ => .ite
    ((hR.child .right node).bind fun _ => .pure _)
    ((hR.child .right node).bind fun _ => hR.sentinel.bind fun _ => .ite
      ((hR.child .left node).bind fun _ => .pure _)
      ((hR.child .right node).bind fun r => (hR.rbtreeNodeMin hf r).bind fun subst =>
        (hR.child .right subst).bind fun _ => .pure _))

theorem deleteUnlink (subst temp : Ptr α) :
    Sim R (deleteUnlink subst temp) (deleteUnlink subst temp) :=
  (hR.parent subst).bind fun p => (hR.child .left p).bind fun _ => .ite
    ((hR.parent subst).bind fun p => hR.setChild .left p temp)
    ((hR.parent subst).bind fun p => hR.setChild .right p temp)

theorem deleteReplace (node subst : Ptr α) :
    Sim R (deleteReplace node subst) (deleteReplace node subst) :=
  (hR.child .left node).bind fun l => (hR.setChild .left subst l).bind fun _ =>
    (hR.child .right node).bind fun r => (hR.setChild .right subst r).bind fun _ =>
    (hR.parent node).bind fun p => (hR.setParent subst p).bind fun _ =>
    (hR.rbtreeCopyColor subst node).bind fun _ => (hR.relink .left node subst).bind fun _ =>
    (hR.child .left subst).bind fun l => (hR.adopt l subst).bind fun _ =>
    (hR.child .right subst).bind fun r => hR.adopt r subst

theorem deleteSplice (node subst temp : Ptr α) :
    Sim R (deleteSplice node subst temp) (deleteSplice node subst temp) :=
  .ite ((hR.parent subst).bind fun p => hR.setParent temp p)
    ((hR.parent subst).bind fun _ => .ite
      ((hR.setParent temp subst).bind fun _ => hR.deleteReplace node subst)
      ((hR.parent subst).bind fun p => (hR.setParent temp p).bind fun _ =>
        hR.deleteReplace node subst))

theorem deleteStraighten (d : Side) (temp w : Ptr α) :
    Sim R (deleteStraighten d temp w) (deleteStraighten d temp w) :=
  (hR.child d.other w).bind fun b => (hR.rbtreeIsBlack b).bind fun _ => .ite
    ((hR.child d w).bind fun a => (hR.setColor a .black).bind fun _ =>
      (hR.setColor w .red).bind fun _ => (hR.rbtreeRotate d.other w).bind fun _ =>
      (hR.parent temp).bind fun p => hR.child d.other p)
    (.pure _)

theorem deleteRotate (d : Side) (temp w : Ptr α) :
    Sim R (deleteRotate d temp w) (deleteRotate d temp w) :=
  (hR.deleteStraighten d temp w).bind fun w => (hR.parent temp).bind fun p =>
    (hR.rbtreeCopyColor w p).bind fun _ => (hR.parent temp).bind fun p =>
    (hR.setColor p .black).bind fun _ => (hR.child d.other w).bind fun b =>
    (hR.setColor b .black).bind fun _ => (hR.parent temp).bind fun p =>
    (hR.rbtreeRotate d p).bind fun _ => hR.root

theorem deleteRedSibling (d : Side) (temp w : Ptr α) :
    Sim R (deleteRedSibling d temp w) (deleteRedSibling d temp w) :=
  (hR.rbtreeIsRed w).bind fun _ => .ite
    ((hR.setColor w .black).bind fun _ => (hR.parent temp).bind fun p =>
      (hR.setColor p .red).bind fun _ => (hR.parent temp).bind fun p =>
      (hR.rbtreeRotate d p).bind fun _ => (hR.parent temp).bind fun p => hR.child d.other p)
    (.pure _)

theorem bothBlack (w : Ptr α) : Sim R (bothBlack w) (bothBlack w) :=
  (hR.child .left w).bind fun l => (hR.rbtreeIsBlack l).bind fun _ => .ite
    ((hR.child .right w).bind fun r => hR.rbtreeIsBlack r) (.pure _)

theorem deleteStep (d : Side) (temp : Ptr α) : Sim R (deleteStep d temp) (deleteStep d temp) :=
  (hR.parent temp).bind fun p => (hR.child d.other p).bind fun w =>
    (hR.deleteRedSibling d temp w).bind fun w => (hR.bothBlack w).bind fun _ => .ite
      ((hR.setColor w .red).bind fun _ => hR.parent temp) (hR.deleteRotate d temp w)

theorem deleteFixup {f f' : Nat} (hf : f ≤ f') (temp : Ptr α) :
    Sim R (deleteFixup f temp) (deleteFixup f' temp) := by
  induction f generalizing f' temp with
  | zero => exact .fault _
  | succ f ih =>
      obtain ⟨f', rfl⟩ := Nat.exists_eq_succ_of_ne_zero (Nat.ne_zero_of_lt hf)
      have ih : ∀ temp, Sim R (Bitzer.deleteFixup f temp) (Bitzer.deleteFixup f' temp) :=
        fun temp => ih (Nat.le_of_succ_le_succ hf) temp
      exact hR.root.bind fun _ => .ite
        ((hR.rbtreeIsBlack temp).bind fun _ => .ite
          ((hR.parent temp).bind fun p => (hR.child .left p).bind fun _ => .ite
            ((hR.deleteStep .left temp).bind ih) ((hR.deleteStep .right temp).bind ih))
          (hR.setColor temp .black))
        (hR.setColor temp .black)

theorem rbtreeDelete {f f' : Nat} (hf : f ≤ f') (node : Ptr α) :
    Sim R (rbtreeDelete f node) (rbtreeDelete f' node) :=
  (hR.deleteSubst hf node).bind fun ⟨subst, temp⟩ => hR.root.bind fun _ => .ite
    ((hR.setRoot temp).bind fun _ => (hR.setColor temp .black).bind fun _ =>
      hR.rbtreeNodeInit node)
    ((hR.rbtreeIsRed subst).bind fun _ => (hR.deleteUnlink subst temp).bind fun _ =>
      (hR.deleteSplice node subst temp).bind fun _ => (hR.rbtreeNodeInit node).bind fun _ =>
      .ite (hR.deleteFixup hf temp) (.pure _))

theorem run {f f' : Nat} (hf : f ≤ f') (op : Op α) : Sim R (op.run f) (op.run f') := by
  cases op with
  | insert x k => exact (hR.setKey (.ref x) k).bind fun _ => hR.rbtreeInsert hf (.ref x)
  | delete x => exact hR.rbtreeDelete hf (.ref x)

end MemSim

/-! ## Termination -/

variable {m : Mem α} {s : α} {es : List (α × UInt64)} {ops : List (Op α)} {fuel : Nat}

theorem Op.endsWithin {op : Op α} (h : Holds m s es) (hop : op.Enabled s m es) :
    EndsWithin (fun n => op.run n) (2 * es.length + 2) m :=
  .of_wp (fun _ _ hf => MemSim.eq.run hf op) (op.run_spec h hop (Nat.lt_succ_self _))

/-- **Termination.** On every tree that can be built, the loops of a call of
`rbtree_insert` or `rbtree_delete` end; none of them takes more than
`2 * n + 2` iterations. -/
theorem tree_ops_terminate (hs : (m.node s).isSome) (hl : Legal s m ops [])
    (hf : 2 * ops.length < fuel) :
    wp (runFromInit fuel s ops) (fun _ m' => ∃ xs, InOrder m' s xs ∧
      (∀ x k, x ≠ s → x ∉ xs → (m'.node x).isSome →
        EndsWithin (fun n => (Op.insert x k).run n) (2 * xs.length + 2) m') ∧
      ∀ x ∈ xs, EndsWithin (fun n => (Op.delete x).run n) (2 * xs.length + 2) m') m := by
  refine wp_mono (runFromInit_spec hs hl hf) ?_
  rintro _ m' ⟨h, -⟩
  refine ⟨_, h.inOrder, fun x k hxs hxt hx => ?_, fun x hx => ?_⟩
  · have hop : (Op.insert x k).Enabled s m' (applyOps ops []) := ⟨hxs, hxt, hx⟩
    rw [List.length_map]
    exact Op.endsWithin h hop
  · have hop : (Op.delete x).Enabled s m' (applyOps ops []) := hx
    rw [List.length_map]
    exact Op.endsWithin h hop

theorem tree_ops_terminate_three :
    wp (runFromInit 9 0 [.insert 1 5, .insert 2 5, .delete 1]) (fun _ m' => ∃ xs, InOrder m' 0 xs ∧
      (∀ x k, x ≠ 0 → x ∉ xs → (m'.node x).isSome →
        EndsWithin (fun n => (Op.insert x k).run n) (2 * xs.length + 2) m') ∧
      ∀ x ∈ xs, EndsWithin (fun n => (Op.delete x).run n) (2 * xs.length + 2) m') blankMem :=
  tree_ops_terminate rfl (by simp [Legal, Op.Enabled, Op.apply, insertEntry, blankMem]) (by decide)

end Bitzer
