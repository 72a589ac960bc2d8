import Bitzer.Rbtree.Basic

/-!
# What the memory of a tree looks like

`Rep m κ s top p t`: the memory `m` holds, below the sentinel `s`, the tree
`fill p t`, seen from the hole of the path `p` at its subtree `t`. Every node
of the tree is a complete cell whose links are those of the shape and whose key
is the one `κ` gives; `top` is the parent link of the root, which the source
does not maintain. Moving the hole up one frame changes nothing (`Rep.up`), so
the loops' walks along parent links are walks of the hole.
-/

namespace Bitzer

open Lib

variable {α : Type}

/-- The pointer to a subtree: the sentinel stands for a missing one. -/
def ptr (s : α) : CTree α → Ptr α
  | .nil => .ref s
  | .node _ _ x _ => .ref x

/-- A complete node with the link `a` on side `d` and `b` on the other. -/
def cell (d : Side) (a b par : Ptr α) (k : UInt64) (c : Color) : RbtreeNode α :=
  match d with
  | .left => ⟨some a, some b, some par, some k, some c⟩
  | .right => ⟨some b, some a, some par, some k, some c⟩

/-- The pointer to the node above a hole. -/
def parOf (top : Ptr α) : CPath α → Ptr α
  | [] => top
  | f :: _ => .ref f.val

section
variable (m : Mem α) (κ : α → UInt64) (s : α)

/-- The nodes of a subtree whose root has the parent link `par`. -/
def At : Ptr α → CTree α → Prop
  | _, .nil => True
  | par, .node c l x r =>
      m.node x = some (cell .left (ptr s l) (ptr s r) par (κ x) c) ∧
        At (.ref x) l ∧ At (.ref x) r

/-- The nodes of a path whose hole is filled by the pointer `q`. -/
def PathAt (top : Ptr α) : CPath α → Ptr α → Prop
  | [], _ => True
  | f :: p, q =>
      m.node f.val =
          some (cell f.side q (ptr s f.sibling) (parOf top p) (κ f.val) f.color) ∧
        At m κ s (.ref f.val) f.sibling ∧ PathAt top p (.ref f.val)

structure Rep (top : Ptr α) (p : CPath α) (t : CTree α) : Prop where
  sentinel_eq : m.tree.sentinel = .ref s
  root_eq : m.tree.root = ptr s (fill p t)
  nodup : (s :: (p.vals ++ t.inorder)).Nodup
  nil_black : ∃ n, m.node s = some n ∧ n.color = some .black
  path : PathAt m κ s top p (ptr s t)
  sub : At m κ s (parOf top p) t

end

section
variable {m m' : Mem α} {κ : α → UInt64} {s : α} {top par q : Ptr α} {p : CPath α}
  {t : CTree α} {d : Side} {c : Color} {a b : CTree α} {x y : α}

@[simp] theorem ptr_nil (s : α) : ptr s .nil = .ref s := rfl

@[simp] theorem ptr_node (s : α) (c : Color) (l : CTree α) (x : α) (r : CTree α) :
    ptr s (.node c l x r) = .ref x := rfl

@[simp] theorem ptr_join (s : α) (d : Side) (c : Color) (a : CTree α) (x : α) (b : CTree α) :
    ptr s (.join d c a x b) = .ref x := by
  cases d <;> rfl

@[simp] theorem ptr_plug (s : α) (f : Frame α) (t : CTree α) :
    ptr s (f.plug t) = .ref f.val := ptr_join ..

@[simp] theorem parOf_nil (top : Ptr α) : parOf top [] = top := rfl

@[simp] theorem parOf_cons (top : Ptr α) (f : Frame α) (p : CPath α) :
    parOf top (f :: p) = .ref f.val := rfl

@[simp] theorem link_cell (d : Side) (a b par : Ptr α) (k : UInt64) (c : Color) :
    (cell d a b par k c).link d = some a := by
  cases d <;> rfl

@[simp] theorem link_other_cell (d : Side) (a b par : Ptr α) (k : UInt64) (c : Color) :
    (cell d a b par k c).link d.other = some b := by
  cases d <;> rfl

@[simp] theorem parent_cell (d : Side) (a b par : Ptr α) (k : UInt64) (c : Color) :
    (cell d a b par k c).parent = some par := by
  cases d <;> rfl

@[simp] theorem key_cell (d : Side) (a b par : Ptr α) (k : UInt64) (c : Color) :
    (cell d a b par k c).key = some k := by
  cases d <;> rfl

@[simp] theorem color_cell (d : Side) (a b par : Ptr α) (k : UInt64) (c : Color) :
    (cell d a b par k c).color = some c := by
  cases d <;> rfl

@[simp] theorem setLink_cell (d : Side) (a b par q : Ptr α) (k : UInt64) (c : Color) :
    (cell d a b par k c).setLink d q = cell d q b par k c := by
  cases d <;> rfl

@[simp] theorem setLink_other_cell (d : Side) (a b par q : Ptr α) (k : UInt64) (c : Color) :
    (cell d a b par k c).setLink d.other q = cell d a q par k c := by
  cases d <;> rfl

@[simp] theorem setParent_cell (d : Side) (a b par q : Ptr α) (k : UInt64) (c : Color) :
    (cell d a b par k c).setParent q = cell d a b q k c := by
  cases d <;> rfl

@[simp] theorem setColor_cell (d : Side) (a b par : Ptr α) (k : UInt64) (c c' : Color) :
    (cell d a b par k c).setColor c' = cell d a b par k c' := by
  cases d <;> rfl

theorem ref_ne_ptr (hx : x ∉ t.inorder) (hs : x ≠ s) : Ptr.ref x ≠ ptr s t := by
  cases t with
  | nil => simpa using hs
  | node c l y r =>
      rintro ⟨⟩
      simp at hx

theorem ptr_eq_sentinel (hs : s ∉ t.inorder) : ptr s t = .ref s ↔ t = .nil := by
  cases t with
  | nil => simp
  | node c l y r =>
      have : s ≠ y := fun h => hs (by simp [h])
      simp [ptr, this.symm]

/-- Distinct nonempty subtrees have distinct roots. -/
theorem ptr_ne_ptr {t' : CTree α} (hd : t.inorder.Disjoint t'.inorder)
    (hs' : s ∉ t'.inorder) (hne : t' ≠ .nil) : ptr s t ≠ ptr s t' := by
  cases t' with
  | nil => exact absurd rfl hne
  | node c l y r =>
      have hy : y ∉ t.inorder := fun h => hd h (by simp)
      exact (ref_ne_ptr hy (fun h => hs' (by simp [h]))).symm

/-- Only the root's link sees what is in the hole. -/
theorem ptr_fill {t t' : CTree α} (h : ptr s t = ptr s t') (p : CPath α) :
    ptr s (fill p t) = ptr s (fill p t') := by
  induction p generalizing t t' with
  | nil => exact h
  | cons f p ih => exact ih (by simp)

theorem ptr_fill_cons (f : Frame α) (p : CPath α) (t t' : CTree α) :
    ptr s (fill (f :: p) t) = ptr s (fill (f :: p) t') :=
  ptr_fill (by simp) p

/-- With a frame above it, a node is not the root. -/
theorem ref_ne_root {f : Frame α} (hx : x ∉ CPath.vals (f :: p)) :
    Ptr.ref x ≠ ptr s (fill (f :: p) t) := by
  induction p generalizing f t with
  | nil =>
      rintro h
      simp only [fill_cons, fill_nil, ptr_plug, Ptr.ref.injEq] at h
      simp [h] at hx
  | cons g p ih =>
      refine ih (t := f.plug t) ?_
      simp only [CPath.vals_cons, List.mem_cons, List.mem_append, not_or] at hx ⊢
      tauto

/-! ## Reading -/

@[simp] theorem at_nil : At m κ s par .nil ↔ True := Iff.rfl

@[simp] theorem at_join :
    At m κ s par (.join d c a x b) ↔
      m.node x = some (cell d (ptr s a) (ptr s b) par (κ x) c) ∧
        At m κ s (.ref x) a ∧ At m κ s (.ref x) b := by
  cases d with
  | left => exact Iff.rfl
  | right => exact and_congr_right fun _ => and_comm

theorem at_plug {f : Frame α} :
    At m κ s par (f.plug t) ↔
      m.node f.val = some (cell f.side (ptr s t) (ptr s f.sibling) par (κ f.val) f.color) ∧
        At m κ s (.ref f.val) t ∧ At m κ s (.ref f.val) f.sibling :=
  at_join

/-- Moving the hole up one frame. -/
theorem Rep.up {f : Frame α} : Rep m κ s top (f :: p) t ↔ Rep m κ s top p (f.plug t) := by
  have hperm : (s :: (CPath.vals (f :: p) ++ t.inorder)).Perm
      (s :: (CPath.vals p ++ (f.plug t).inorder)) :=
    ((perm_inorder_fill (f :: p) t).symm.trans (perm_inorder_fill p (f.plug t))).cons s
  constructor
  · rintro ⟨hs, hr, hn, hb, ⟨hc, hsib, hp⟩, hsub⟩
    exact ⟨hs, hr, hperm.nodup hn, hb, by simpa using hp, at_plug.mpr ⟨hc, hsub, hsib⟩⟩
  · rintro ⟨hs, hr, hn, hb, hp, hsub⟩
    obtain ⟨hc, ht, hsib⟩ := at_plug.mp hsub
    exact ⟨hs, hr, hperm.symm.nodup hn, hb, ⟨hc, hsib, by simpa using hp⟩, ht⟩

theorem Rep.fill_iff : Rep m κ s top p t ↔ Rep m κ s top [] (fill p t) := by
  induction p generalizing t with
  | nil => exact Iff.rfl
  | cons f p ih => exact Rep.up.trans ih

/-- The complete cell of the node at the hole. -/
theorem Rep.node_eq (h : Rep m κ s top p (.join d c a x b)) :
    m.node x = some (cell d (ptr s a) (ptr s b) (parOf top p) (κ x) c) :=
  (at_join.mp h.sub).1

/-- The complete cell of the node above the hole. -/
theorem Rep.top_eq {f : Frame α} (h : Rep m κ s top (f :: p) t) :
    m.node f.val =
      some (cell f.side (ptr s t) (ptr s f.sibling) (parOf top p) (κ f.val) f.color) :=
  h.path.1

/-- The hole may move to the sibling. -/
theorem Rep.swap {w : CTree α} :
    Rep m κ s top (⟨d, c, x, w⟩ :: p) t ↔ Rep m κ s top (⟨d.other, c, x, t⟩ :: p) w := by
  rw [Rep.up, Rep.up]
  unfold Frame.plug
  rw [CTree.join_other]

end

/-! ## The rules of the memory operations -/

section
variable {m : Mem α} {β : Type} {Q : β → Mem α → Prop} {Q' : Unit → Mem α → Prop}
  {field : RbtreeNode α → Option β} {write : RbtreeNode α → RbtreeNode α} {x : α}
  {n : RbtreeNode α} {v : β}

theorem load_run (hn : m.node x = some n) (hv : field n = some v) :
    (load field (.ref x)).run m = some (v, m) := by
  show ((m.node x).bind field).map (·, m) = _
  simp [hn, hv]

theorem wp_load (hn : m.node x = some n) (hv : field n = some v) :
    wp (load field (.ref x)) Q m ↔ Q v m :=
  wp_of_run (load_run hn hv)

variable [DecidableEq α]

theorem wp_store (hn : m.node x = some n) :
    wp (store write (.ref x)) Q' m ↔ Q' () (m.set x (write n)) := by
  refine wp_of_run ?_
  show (m.node x).map _ = _
  simp [hn]

@[simp] theorem Mem.set_same (m : Mem α) (x : α) (n : RbtreeNode α) :
    (m.set x n).node x = some n := by
  simp [Mem.set]

theorem Mem.set_other (m : Mem α) {x y : α} (n : RbtreeNode α) (h : y ≠ x) :
    (m.set x n).node y = m.node y := by
  simp [Mem.set, h]

@[simp] theorem Mem.set_tree (m : Mem α) (x : α) (n : RbtreeNode α) :
    (m.set x n).tree = m.tree := rfl

end

section
variable {m : Mem α} {κ : α → UInt64} {s : α} {top : Ptr α} {p : CPath α} {t w : CTree α}
  {f g : Frame α} {d : Side} {c : Color} {x : α} {a : Ptr α}

theorem rbtreeIsRed_run (h : (color a).run m = some (c, m)) :
    (rbtreeIsRed a).run m = some (c == .red, m) := by
  simp [rbtreeIsRed, h]

theorem rbtreeIsBlack_run (h : (color a).run m = some (c, m)) :
    (rbtreeIsBlack a).run m = some (!(c == .red), m) := by
  simp [rbtreeIsBlack, rbtreeIsRed_run h]

theorem Rep.root_run (h : Rep m κ s top p t) :
    root.run m = some (ptr s (fill p t), m) := by
  show some (m.tree.root, m) = _
  rw [h.root_eq]

theorem Rep.sentinel_run (h : Rep m κ s top p t) : sentinel.run m = some (.ref s, m) := by
  show some (m.tree.sentinel, m) = _
  rw [h.sentinel_eq]

/-- The root of a subtree, or the sentinel, has the colour of the subtree. -/
theorem Rep.color_run (h : Rep m κ s top p t) :
    (color (ptr s t)).run m = some (t.rootColor, m) := by
  cases t with
  | nil =>
      obtain ⟨n, hn, hc⟩ := h.nil_black
      exact load_run hn hc
  | node c l x r => exact load_run (h.node_eq (d := .left)) (color_cell ..)

theorem Rep.child_run {a b : CTree α} (h : Rep m κ s top p (.join d c a x b)) :
    (child d (.ref x)).run m = some (ptr s a, m) :=
  load_run h.node_eq (link_cell ..)

theorem Rep.other_child_run {a b : CTree α} (h : Rep m κ s top p (.join d c a x b)) :
    (child d.other (.ref x)).run m = some (ptr s b, m) :=
  load_run h.node_eq (link_other_cell ..)

theorem Rep.parent_run (h : Rep m κ s top (f :: p) t) (ht : t ≠ .nil) :
    (parent (ptr s t)).run m = some (.ref f.val, m) := by
  obtain ⟨c, a, x, b, rfl⟩ := CTree.exists_join .left ht
  rw [ptr_join]
  exact load_run h.node_eq (parent_cell ..)

/-! The node above the hole, read. -/

theorem Rep.top_child_run (h : Rep m κ s top (f :: p) t) :
    (child f.side (.ref f.val)).run m = some (ptr s t, m) :=
  load_run h.top_eq (link_cell ..)

theorem Rep.top_sibling_run (h : Rep m κ s top (f :: p) t) :
    (child f.side.other (.ref f.val)).run m = some (ptr s f.sibling, m) :=
  load_run h.top_eq (link_other_cell ..)

theorem Rep.top_color_run (h : Rep m κ s top (f :: p) t) :
    (color (.ref f.val)).run m = some (f.color, m) :=
  load_run h.top_eq (color_cell ..)

theorem Rep.top_parent_run (h : Rep m κ s top (f :: g :: p) t) :
    (parent (.ref f.val)).run m = some (.ref g.val, m) :=
  load_run h.top_eq (parent_cell ..)

theorem Rep.sibling_color_run (h : Rep m κ s top (⟨d, c, x, w⟩ :: p) t) :
    (color (ptr s w)).run m = some (w.rootColor, m) :=
  (Rep.swap.mp h).color_run

/-- The sentinel is no node of the tree. -/
theorem Rep.sentinel_notMem (h : Rep m κ s top p t) : s ∉ (fill p t).inorder := by
  intro hs
  rw [mem_fill_iff, ← List.mem_append] at hs
  exact (List.nodup_cons.mp h.nodup).1 hs

theorem Rep.ptr_ne_sentinel (h : Rep m κ s top p t) (ht : t ≠ .nil) : ptr s t ≠ .ref s := by
  intro heq
  exact ht ((ptr_eq_sentinel fun hs => h.sentinel_notMem (mem_fill hs)).mp heq)

/-- Below the root, a node is not the root. -/
theorem Rep.ptr_ne_root (h : Rep m κ s top (f :: p) t) : ptr s t ≠ ptr s (fill (f :: p) t) := by
  have hn := h.nodup
  simp only [List.nodup_cons, List.nodup_append, List.mem_append, not_or] at hn
  cases t with
  | nil =>
      refine ref_ne_root hn.1.1
  | node c l x r =>
      refine ref_ne_root fun hx => ?_
      exact hn.2.2.2 x hx x (by simp) rfl

/-- The test `node == node->parent->left` tells the side of the hole, as long
as the other child is not confused with it. -/
theorem Rep.ptr_ne_sibling (h : Rep m κ s top (⟨d, c, x, w⟩ :: p) t)
    (hne : t ≠ .nil ∨ w ≠ .nil) : ptr s t ≠ ptr s w := by
  have hn := h.nodup
  simp only [CPath.vals_cons, List.cons_append, List.nodup_cons, List.mem_cons,
    List.mem_append, List.nodup_append, not_or] at hn
  rcases hne with hne | hne
  · refine (ptr_ne_ptr ?_ (by tauto) hne).symm
    intro y hw ht
    exact hn.2.2.2.2 y (Or.inl hw) y ht rfl
  · refine ptr_ne_ptr ?_ (by tauto) hne
    intro y ht hw
    exact hn.2.2.2.2 y (Or.inl hw) y ht rfl

end

/-! ## Locality -/

section
variable {m m' : Mem α} {κ : α → UInt64} {s : α} {top par q : Ptr α} {p : CPath α}
  {t : CTree α}

/-- A subtree does not see changes elsewhere. -/
theorem At.congr (h : At m κ s par t) (hm : ∀ y ∈ t.inorder, m'.node y = m.node y) :
    At m' κ s par t := by
  induction t generalizing par with
  | nil => trivial
  | node c l x r ihl ihr =>
      obtain ⟨hx, hl, hr⟩ := h
      refine ⟨?_, ihl hl fun y hy => hm y (by simp [hy]), ihr hr fun y hy => hm y (by simp [hy])⟩
      rw [hm x (by simp)]
      exact hx

theorem PathAt.congr (h : PathAt m κ s top p q) (hm : ∀ y ∈ p.vals, m'.node y = m.node y) :
    PathAt m' κ s top p q := by
  induction p generalizing q with
  | nil => trivial
  | cons f p ih =>
      obtain ⟨hx, hs, hp⟩ := h
      refine ⟨?_, hs.congr fun y hy => hm y (by simp [hy]), ih hp fun y hy => hm y (by simp [hy])⟩
      rw [hm f.val (by simp)]
      exact hx

/-- Keys outside the tree are free. -/
theorem At.congr_key {κ' : α → UInt64} (h : At m κ s par t)
    (hκ : ∀ y ∈ t.inorder, κ' y = κ y) : At m κ' s par t := by
  induction t generalizing par with
  | nil => trivial
  | node c l x r ihl ihr =>
      obtain ⟨hx, hl, hr⟩ := h
      refine ⟨?_, ihl hl fun y hy => hκ y (by simp [hy]), ihr hr fun y hy => hκ y (by simp [hy])⟩
      rw [hκ x (by simp)]
      exact hx

/-- `m'` differs from `m` on the nodes `xs` at most. -/
def SameOff (xs : List α) (m m' : Mem α) : Prop :=
  ∀ y, y ∉ xs → m'.node y = m.node y

theorem SameOff.refl (xs : List α) (m : Mem α) : SameOff xs m m := fun _ _ => rfl

theorem SameOff.trans {xs : List α} {m₁ m₂ m₃ : Mem α} (h₁ : SameOff xs m₁ m₂)
    (h₂ : SameOff xs m₂ m₃) : SameOff xs m₁ m₃ :=
  fun y hy => (h₂ y hy).trans (h₁ y hy)

theorem SameOff.mono {xs ys : List α} (h : SameOff xs m m') (hs : ∀ y ∈ xs, y ∈ ys) :
    SameOff ys m m' :=
  fun y hy => h y fun hx => hy (hs y hx)

theorem SameOff.set [DecidableEq α] {xs : List α} {x : α} (hx : x ∈ xs) (m : Mem α)
    (n : RbtreeNode α) : SameOff xs m (m.set x n) :=
  fun _ hy => Mem.set_other m n fun h => hy (h ▸ hx)

end

end Bitzer
