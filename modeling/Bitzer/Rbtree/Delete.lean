import Bitzer.Rbtree.DeleteFixup

/-!
# Deletion

`rbtreeDelete_spec`: on a red-black tree, `rbtree_delete` of a node of the tree
returns, and the tree it leaves is red-black and has lost that node and no
other. The node that leaves its place is the removed one or the first node of
its right subtree; the latter is linked into the removed node's place, so no
key moves. What is left to the fix-up loop is `Deficient`.
-/

namespace Bitzer

open Lib

variable {α : Type}

section
variable {m m' : Mem α} {κ : α → UInt64} {s : α} {top par : Ptr α} {p q : CPath α}
  {t : CTree α} {d : Side} {c : Color} {x y : α} {n : Nat} {fuel : Nat}

theorem parOf_append (top : Ptr α) (p q : CPath α) :
    parOf top (p ++ q) = parOf (parOf top q) p := by
  cases p <;> rfl

/-- A subtree with a hole: its path and the subtree in the hole. -/
theorem at_fill : At m κ s par (fill p t) ↔
    PathAt m κ s par p (ptr s t) ∧ At m κ s (parOf par p) t := by
  induction p generalizing t with
  | nil => simp [PathAt]
  | cons f p ih =>
      rw [fill_cons, ih, at_plug, ptr_plug, parOf_cons, PathAt]
      tauto

/-- A path in two parts. -/
theorem pathAt_append : PathAt m κ s top (p ++ q) (ptr s t) ↔
    PathAt m κ s (parOf top q) p (ptr s t) ∧ PathAt m κ s top q (ptr s (fill p t)) := by
  induction p generalizing t with
  | nil => simp [PathAt]
  | cons f p ih =>
      have hf : Ptr.ref f.val = ptr s (f.plug t) := (ptr_plug ..).symm
      rw [List.cons_append, PathAt, PathAt, fill_cons, parOf_append, hf, ih]
      tauto

/-- `y` leaves its place, and takes the one of `x`. -/
theorem inorder_replace {l r : CTree α} {c' : Color} {ps : CPath α}
    (hps : ∀ f ∈ ps, f.side = .left) :
    (fill (ps ++ ⟨.right, c, y, l⟩ :: p) r).inorder =
      p.before ++ (l.inorder ++ (fill ps (.node c' .nil y r)).inorder) ++ p.after := by
  rw [fill_append, fill_cons, inorder_fill p, inorder_fill ps (.node c' .nil y r),
    CPath.before_of_left hps]
  simp [Frame.plug, CTree.join, inorder_fill ps r, CPath.before_of_left hps]

/-- In the sentinel, at most the parent link has changed. -/
def SentinelKept (s : α) (m m' : Mem α) : Prop :=
  ∃ p, m'.node s = (m.node s).map fun n => { n with parent := p }

theorem SentinelKept.of_eq (h : m'.node s = m.node s) : SentinelKept s m m' := by
  refine ⟨(m.node s).bind (·.parent), ?_⟩
  rw [h]
  cases m.node s <;> rfl

/-- Of the sentinel, the tree needs the colour only. -/
theorem Rep.congr_nodes (h : Rep m κ s top p t)
    (hm : ∀ y ∈ p.vals ++ t.inorder, m'.node y = m.node y)
    (hnil : ∃ n, m'.node s = some n ∧ n.color = some .black) (ht : m'.tree = m.tree) :
    Rep m' κ s top p t := by
  obtain ⟨hs, hr, hn, -, hp, hsub⟩ := h
  refine ⟨by rw [ht, hs], by rw [ht, hr], hn, hnil, ?_, ?_⟩
  · exact hp.congr fun y hy => hm y (by simp [hy])
  · exact hsub.congr fun y hy => hm y (by simp [hy])

/-- Changes outside the tree and the sentinel do not concern it. -/
theorem Rep.congr (h : Rep m κ s top p t)
    (hm : ∀ y ∈ s :: (p.vals ++ t.inorder), m'.node y = m.node y)
    (ht : m'.tree = m.tree) : Rep m' κ s top p t := by
  refine h.congr_nodes (fun y hy => hm y (List.mem_cons_of_mem _ hy)) ?_ ht
  rw [hm s (by simp)]
  exact h.nil_black

variable [DecidableEq α]

/-- `rbtree_node_min` ends at the first node of the subtree. -/
theorem rbtreeNodeMin_run (h : Rep m κ s top p t) (ht : t ≠ .nil)
    (hf : t.inorder.length < fuel) :
    ∃ ps c x r, t = fill ps (.node c .nil x r) ∧ (∀ f ∈ ps, f.side = .left) ∧
      (rbtreeNodeMin fuel (ptr s t)).run m = some (.ref x, m) := by
  induction fuel generalizing p t with
  | zero => omega
  | succ fuel ih =>
  cases t with
  | nil => exact absurd rfl ht
  | node c l y r =>
      have hy : (child .left (.ref y)).run m = some (ptr s l, m) :=
        load_run (h.node_eq (d := .left)) (link_cell ..)
      have hfresh := h.nodup
      simp only [List.nodup_cons, List.mem_append, CTree.inorder_node, List.mem_cons, not_or]
        at hfresh
      simp only [CTree.inorder_node, List.length_append, List.length_cons] at hf
      unfold rbtreeNodeMin
      simp only [ptr_node, StateT.run_bind, hy, h.sentinel_run, Option.bind_eq_bind,
        Option.bind_some]
      by_cases hl : l = .nil
      · subst hl
        exact ⟨[], c, y, r, rfl, by simp, by rw [if_neg (by simp)]; rfl⟩
      · rw [if_pos (by rw [ne_eq, ptr_eq_sentinel (by tauto)]; exact hl)]
        obtain ⟨ps, c', x, r', rfl, hps, hrun⟩ :=
          ih (p := ⟨.left, c, y, r⟩ :: p) (Rep.up.mpr h) hl (by omega)
        refine ⟨ps ++ [⟨.left, c, y, r⟩], c', x, r', by rw [fill_append]; rfl, ?_, ?_⟩
        · intro f hf
          rcases List.mem_append.mp hf with hf | hf
          · exact hps f hf
          · rw [List.mem_singleton.mp hf]
        · simp only [StateT.run_bind, hy, Option.bind_eq_bind, Option.bind_some]
          exact hrun

/-- The link to `y` leads to `b` now. -/
theorem deleteUnlink_spec {f : Frame α} {nd : RbtreeNode α} {b : Ptr α} (hy : m.node y = some nd)
    (hpar : nd.parent = some (.ref f.val)) (hp : PathAt m κ s top (f :: q) (.ref y))
    (hn : (CPath.vals (f :: q)).Nodup) (hyp : y ∉ CPath.vals (f :: q)) (hys : y ≠ s) :
    wp (deleteUnlink (.ref y) b) (fun _ m' =>
      PathAt m' κ s top (f :: q) b ∧ SameOff (CPath.vals (f :: q)) m m' ∧ m'.tree = m.tree) m := by
  obtain ⟨g, c, w, sib⟩ := f
  obtain ⟨hw, hsib, hp⟩ := hp
  simp only [CPath.vals_cons, List.mem_cons, List.mem_append, not_or, List.cons_append] at hyp hn
  have hput : PathAt (m.set w (cell g b (ptr s sib) (parOf top q) (κ w) c)) κ s top
      (⟨g, c, w, sib⟩ :: q) b := by
    refine ⟨Mem.set_same .., ?_, ?_⟩
    · exact hsib.congr fun z hz => Mem.set_other _ _ (by grind)
    · exact hp.congr fun z hz => Mem.set_other _ _ (by grind)
  have hsame : ∀ n', SameOff (CPath.vals (⟨g, c, w, sib⟩ :: q)) m (m.set w n') :=
    fun n' => SameOff.set (by simp) _ _
  unfold deleteUnlink
  refine (wp_bind ..).mpr ((wp_load hy hpar).mpr ?_)
  cases g with
  | left =>
      refine (wp_bind ..).mpr ((wp_load hw (link_cell ..)).mpr ?_)
      rw [if_pos rfl]
      refine (wp_bind ..).mpr ((wp_load hy hpar).mpr ?_)
      refine (wp_store hw).mpr ?_
      rw [setLink_cell]
      exact ⟨hput, hsame _, rfl⟩
  | right =>
      refine (wp_bind ..).mpr ((wp_load hw (link_other_cell .right ..)).mpr ?_)
      rw [if_neg (ref_ne_ptr (by tauto) hys)]
      refine (wp_bind ..).mpr ((wp_load hy hpar).mpr ?_)
      refine (wp_store hw).mpr ?_
      rw [setLink_cell]
      exact ⟨hput, hsame _, rfl⟩

/-- The parent link of a subtree, which is the sentinel's when it is empty. -/
theorem setParent_spec {b : CTree α} (hf : s ∉ b.inorder) (hn : b.inorder.Nodup)
    (hb : At m κ s par b) (hnil : ∃ n, m.node s = some n ∧ n.color = some .black) (q : Ptr α) :
    wp (setParent (ptr s b) q) (fun _ m' =>
      At m' κ s q b ∧ Scratch m' s b q ∧ (∃ n, m'.node s = some n ∧ n.color = some .black) ∧
        SameOff (s :: b.inorder) m m' ∧ SentinelKept s m m' ∧ m'.tree = m.tree) m := by
  obtain ⟨sn, hsn, hsc⟩ := hnil
  cases b with
  | nil =>
      exact (wp_store hsn).mpr ⟨trivial, fun _ => ⟨_, Mem.set_same .., rfl⟩,
        ⟨_, Mem.set_same .., hsc⟩, SameOff.set (by simp) _ _,
        ⟨some q, by rw [Mem.set_same, hsn]; rfl⟩, rfl⟩
  | node c l z r =>
      obtain ⟨hz, hl, hr⟩ := hb
      simp only [CTree.inorder_node, List.nodup_append, List.nodup_cons, List.mem_cons,
        List.mem_append] at hn hf
      refine (wp_store hz).mpr ⟨⟨by simp, ?_, ?_⟩, fun h => (by cases h), ⟨sn, ?_, hsc⟩,
        SameOff.set (by simp) _ _, .of_eq (Mem.set_other _ _ (by grind)), rfl⟩
      · exact hl.congr fun y hy => Mem.set_other _ _ (by grind)
      · exact hr.congr fun y hy => Mem.set_other _ _ (by grind)
      · rw [Mem.set_other _ _ (by grind), hsn]

/-- The parent of the subtree below `y` is `y` itself where it was `x`, which `y`
replaces. -/
theorem deleteSplice_replace {nd : RbtreeNode α} {w : α} {b par : Ptr α}
    {Q : Unit → Mem α → Prop} (hxy : y ≠ x) (hy : m.node y = some nd)
    (hpar : nd.parent = some (.ref w))
    (hval : par = if Ptr.ref w = Ptr.ref x then .ref y else .ref w)
    (h : wp (setParent b par) (fun _ => wp (deleteReplace (.ref x) (.ref y)) Q) m) :
    wp (deleteSplice (.ref x) (.ref y) b) Q m := by
  unfold deleteSplice
  rw [if_neg (by simpa using hxy)]
  refine (wp_bind ..).mpr ((wp_load hy hpar).mpr ?_)
  subst hval
  by_cases hw : Ptr.ref w = Ptr.ref x
  · rw [if_pos hw] at h ⊢
    exact (wp_bind ..).mpr h
  · rw [if_neg hw] at h ⊢
    exact (wp_bind ..).mpr ((wp_load hy hpar).mpr ((wp_bind ..).mpr h))

/-- `y` takes the place of `x`. -/
theorem deleteReplace_spec {l R : CTree α} {nd : RbtreeNode α} (hs : m.tree.sentinel = .ref s)
    (hx : m.node x = some (cell .left (ptr s l) (ptr s R) (parOf top p) (κ x) c))
    (hy : m.node y = some nd) (hk : nd.key = some (κ y)) (hl : At m κ s (.ref x) l)
    (hR : At m κ s par R) (hp : PathAt m κ s top p (.ref x))
    (hroot : m.tree.root = ptr s (fill p (.node c l x R)))
    (hn : (s :: x :: y :: (p.vals ++ (l.inorder ++ R.inorder))).Nodup)
    (hnil : ∃ n, m.node s = some n ∧ n.color = some .black) :
    wp (deleteReplace (.ref x) (.ref y)) (fun _ m' =>
      Rep m' κ s top p (.node c l y R) ∧
        SameOff (y :: (p.vals ++ (l.inorder ++ R.inorder))) m m') m := by
  obtain ⟨sn, hsn, hsc⟩ := hnil
  simp only [List.nodup_cons, List.mem_cons, List.mem_append, not_or, List.nodup_append] at hn
  obtain ⟨⟨hsx, hsy, hsp, hsl, hsR⟩, ⟨hxy, hxp, hxl, hxR⟩, ⟨hyp, hyl, hyR⟩, hpn, ⟨hln, hRn, hlR⟩,
    hpd⟩ := hn
  unfold deleteReplace
  refine (wp_bind ..).mpr ((wp_load hx (link_cell ..)).mpr ?_)
  refine (wp_bind ..).mpr ((wp_store hy).mpr ?_)
  refine (wp_bind ..).mpr ((wp_load ((Mem.set_other _ _ hxy).trans hx)
    (link_other_cell .left ..)).mpr ?_)
  refine (wp_bind ..).mpr ((wp_store (Mem.set_same ..)).mpr ?_)
  refine (wp_bind ..).mpr ((wp_load
    (((Mem.set_other _ _ hxy).trans (Mem.set_other _ _ hxy)).trans hx)
    (parent_cell ..)).mpr ?_)
  refine (wp_bind ..).mpr ((wp_store (Mem.set_same ..)).mpr ?_)
  unfold rbtreeCopyColor
  refine (wp_bind ..).mpr ((wp_bind ..).mpr ((wp_load ((((Mem.set_other _ _ hxy).trans
    (Mem.set_other _ _ hxy)).trans (Mem.set_other _ _ hxy)).trans hx) (color_cell ..)).mpr ?_))
  refine (wp_store (Mem.set_same ..)).mpr ?_
  generalize hm₁ : Mem.set _ y _ = m₁
  have ho₁ : SameOff [y] m m₁ := by
    rw [← hm₁]
    exact (SameOff.set (by simp) _ _).trans ((SameOff.set (by simp) _ _).trans
      ((SameOff.set (by simp) _ _).trans (SameOff.set (by simp) _ _)))
  have ht₁ : m₁.tree = m.tree := by
    rw [← hm₁]
    rfl
  have hy₁ : m₁.node y = some (cell .left (ptr s l) (ptr s R) (parOf top p) (κ y) c) := by
    rw [← hm₁, Mem.set_same]
    obtain ⟨_, _, _, k, _⟩ := nd
    obtain rfl : k = some (κ y) := hk
    rfl
  clear hm₁
  have hx₁ := (ho₁ x (by simpa using hxy)).trans hx
  have hp₁ : PathAt m₁ κ s top p (.ref x) := hp.congr fun v hv => ho₁ v (by grind)
  -- where `x` hung
  refine (wp_bind ..).mpr (wp_mono (relink_spec .left hx₁ (parent_cell ..) hp₁ hpn hxp
    (Ne.symm hsx) (.node c l x R) (by rw [ht₁, hroot]) rfl) ?_)
  rintro _ m₂ ⟨hp₂, ho₂, hs₂, hr₂⟩
  have hy₂ := (ho₂ y hyp).trans hy₁
  have hl₂ : At m₂ κ s (.ref x) l := hl.congr fun v hv =>
    (ho₂ v (by grind)).trans (ho₁ v (by grind))
  have hR₂ : At m₂ κ s par R := hR.congr fun v hv =>
    (ho₂ v (by grind)).trans (ho₁ v (by grind))
  -- the children's parent links
  refine (wp_bind ..).mpr ((wp_load hy₂ (link_cell ..)).mpr ?_)
  refine (wp_bind ..).mpr
    (wp_mono (adopt_spec (q := .ref y) (hs₂.trans (by rw [ht₁, hs])) hsl hln hl₂) ?_)
  rintro _ m₃ ⟨hl₃, ho₃, ht₃⟩
  have hy₃ := (ho₃ y hyl).trans hy₂
  have hR₃ : At m₃ κ s par R := hR₂.congr fun v hv => ho₃ v (by grind)
  refine (wp_bind ..).mpr ((wp_load hy₃ (link_other_cell .left ..)).mpr ?_)
  refine wp_mono (adopt_spec (q := .ref y) (by rw [ht₃, hs₂, ht₁, hs]) hsR hRn hR₃) ?_
  rintro _ m₄ ⟨hR₄, ho₄, ht₄⟩
  have hy₄ := (ho₄ y hyR).trans hy₃
  have ho : SameOff (y :: (p.vals ++ (l.inorder ++ R.inorder))) m m₄ :=
    (ho₁.mono (by simp)).trans ((ho₂.mono (by grind)).trans
      ((ho₃.mono (by grind)).trans (ho₄.mono (by grind))))
  refine ⟨⟨?_, ?_, ?_, ⟨sn, ?_, hsc⟩, ?_, ⟨hy₄, ?_, hR₄⟩⟩, ho⟩
  · rw [ht₄, ht₃, hs₂, ht₁, hs]
  · rw [ht₄, ht₃]
    exact hr₂ _ rfl
  · simp only [CTree.inorder_node, List.nodup_cons, List.mem_append, List.mem_cons,
      List.nodup_append]
    grind
  · rw [ho s (by grind), hsn]
  · exact hp₂.congr fun v hv => (ho₄ v (by grind)).trans (ho₃ v (by grind))
  · exact hl₃.congr fun v hv => ho₄ v (by grind)

/-- `rbtree_node_init` of a node outside the tree. -/
theorem rbtreeNodeInit_spec {nd : RbtreeNode α} (hx : m.node x = some nd) :
    wp (rbtreeNodeInit (.ref x)) (fun _ m' =>
      m'.node x = some ⟨some .null, some .null, some .null, some 0, nd.color⟩ ∧
        SameOff [x] m m' ∧ m'.tree = m.tree) m := by
  unfold rbtreeNodeInit
  refine (wp_bind ..).mpr ((wp_store hx).mpr ?_)
  refine (wp_bind ..).mpr ((wp_store (Mem.set_same ..)).mpr ?_)
  refine (wp_bind ..).mpr ((wp_store (Mem.set_same ..)).mpr ?_)
  refine (wp_store (Mem.set_same ..)).mpr ⟨?_, ?_, rfl⟩
  · rw [Mem.set_same]
    rfl
  · exact (SameOff.set (by simp) _ _).trans ((SameOff.set (by simp) _ _).trans
      ((SameOff.set (by simp) _ _).trans (SameOff.set (by simp) _ _)))

/-! ## The three shapes -/

theorem deleteSubst_run {b : CTree α} (fuel : Nat) (h : Rep m κ s top p (.join d c .nil x b)) :
    (deleteSubst fuel (.ref x)).run m = some ((.ref x, ptr s b), m) := by
  have hnil : (child d (.ref x)).run m = some (.ref s, m) := h.child_run
  have hb : (child d.other (.ref x)).run m = some (ptr s b, m) := h.other_child_run
  have hs := h.sentinel_run
  have hfresh := h.nodup
  simp only [List.nodup_cons, List.mem_append, CTree.mem_inorder_join, not_or] at hfresh
  cases d with
  | left =>
      have hb : (child .right (.ref x)).run m = some (ptr s b, m) := hb
      simp [deleteSubst, hnil, hs, hb]
  | right =>
      have hb : (child .left (.ref x)).run m = some (ptr s b, m) := hb
      by_cases hbn : b = .nil
      · subst hbn
        simp [deleteSubst, hnil, hs, hb]
      · have hne : ptr s b ≠ .ref s := by
          rw [ne_eq, ptr_eq_sentinel (by tauto)]
          exact hbn
        simp [deleteSubst, hnil, hs, hb, hne]

theorem deleteSubst_run_inner {l r : CTree α} (h : Rep m κ s top p (.node c l x r))
    (hl : l ≠ .nil) (hr : r ≠ .nil) (hf : r.inorder.length < fuel) :
    ∃ ps c' y r', r = fill ps (.node c' .nil y r') ∧ (∀ f ∈ ps, f.side = .left) ∧
      (deleteSubst fuel (.ref x)).run m = some ((.ref y, ptr s r'), m) := by
  have hfresh := h.nodup
  simp only [List.nodup_cons, List.mem_append, CTree.inorder_node, List.mem_cons, not_or] at hfresh
  have hR : Rep m κ s top (⟨.right, c, x, l⟩ :: p) r := Rep.up.mpr h
  obtain ⟨ps, c', y, r', rfl, hps, hrun⟩ := rbtreeNodeMin_run hR hr hf
  refine ⟨ps, c', y, r', rfl, hps, ?_⟩
  have hlc : (child .left (.ref x)).run m = some (ptr s l, m) := hR.top_sibling_run
  have hrc := hR.top_child_run
  simp only at hrc
  have hne : ptr s l ≠ .ref s := by
    rw [ne_eq, ptr_eq_sentinel (by tauto)]
    exact hl
  have hne' : ptr s (fill ps (.node c' .nil y r')) ≠ .ref s := by
    rw [ne_eq, ptr_eq_sentinel (by tauto)]
    exact hr
  have hY : Rep m κ s top (ps ++ ⟨.right, c, x, l⟩ :: p) (.node c' .nil y r') := by
    rw [Rep.fill_iff, fill_append, ← Rep.fill_iff]
    exact hR
  have hyr : (child .right (.ref y)).run m = some (ptr s r', m) :=
    load_run (hY.node_eq (d := .left)) (link_other_cell .left ..)
  simp [deleteSubst, hlc, hrc, h.sentinel_run, hne, hne', hrun, hyr]

/-- `rbtree_delete` with the assertions in its loop. -/
def rbtreeDeleteAsserting (s : α) (fuel : Nat) (node : Ptr α) : Prog (Mem α) Unit := do
  let (subst, temp) ← deleteSubst fuel node
  if subst = (← root) then
    setRoot temp
    rbtreeBlack temp
    rbtreeNodeInit node
  else
    let red ← rbtreeIsRed subst
    deleteUnlink subst temp
    deleteSplice node subst temp
    rbtreeNodeInit node
    if !red then
      deleteFixupAsserting s fuel temp

theorem rbtreeDeleteAsserting_sim (s : α) (fuel : Nat) (node : Ptr α) :
    Sim Eq (rbtreeDeleteAsserting s fuel node) (rbtreeDelete fuel node) :=
  (Sim.refl _).bind fun ⟨_, temp⟩ => (Sim.refl _).bind fun _ => .ite (.refl _) <|
    (Sim.refl _).bind fun _ => (Sim.refl _).bind fun _ => (Sim.refl _).bind fun _ =>
    (Sim.refl _).bind fun _ => .ite (deleteFixupAsserting_sim s fuel temp) (.refl _)

/-- The node is wiped and, if the tree lost a black node, fixed up. -/
theorem deleteFinish_spec {f : Frame α} {b : CTree α} {nd : RbtreeNode α}
    (h : Rep m κ s top (f :: q) b) (hscr : Scratch m s b (.ref f.val))
    (hx : m.node x = some nd) (hxs : x ≠ s) (hxt : x ∉ (fill (f :: q) b).inorder)
    (hp : CPath.Balanced (f :: q) n) (hb : (CTree.join d c .nil y b).Balanced n)
    (hf : 2 * (fill (f :: q) b).inorder.length + 1 < fuel) :
    wp (do rbtreeNodeInit (.ref x); if !(c == .red) then deleteFixupAsserting s fuel (ptr s b))
      (fun _ m' => ∃ t', Rep m' κ s top [] t' ∧ t'.RedBlack ∧
        t'.inorder = (fill (f :: q) b).inorder ∧
        (∃ nd', m'.node x = some nd' ∧ nd'.key = some 0) ∧
        SameOff (x :: (fill (f :: q) b).inorder) m m') m := by
  refine (wp_bind ..).mpr (wp_mono (rbtreeNodeInit_spec hx) ?_)
  rintro _ m₁ ⟨hx₁, ho₁, ht₁⟩
  have hmem : ∀ v, v ∈ s :: (CPath.vals (f :: q) ++ b.inorder) → v ∉ [x] := by
    intro v hv hvx
    obtain rfl := List.mem_singleton.mp hvx
    rcases List.mem_cons.mp hv with rfl | hv
    · exact hxs rfl
    · exact hxt (mem_fill_iff.mpr (List.mem_append.mp hv))
  have h₁ : Rep m₁ κ s top (f :: q) b := h.congr (fun v hv => ho₁ v (hmem v hv)) ht₁
  have hscr₁ := hscr.congr (ho₁ s (hmem s (by simp)))
  cases c with
  | red =>
      obtain ⟨-, hbb, -, hbn⟩ := CTree.balanced_join_red.mp hb
      refine (wp_pure ..).mpr ⟨fill (f :: q) b, Rep.fill_iff.mp h₁, ?_, rfl, ⟨_, hx₁, rfl⟩,
        ho₁.mono (by simp)⟩
      exact (redBlack_fill ..).mpr ⟨n, hp, hbn, by simp [hbb]⟩
  | black =>
      obtain ⟨k, rfl, -, hbk⟩ := CTree.balanced_join_black.mp hb
      have hD : Deficient m₁ κ s top (f :: q) b :=
        ⟨h₁, fun _ => hscr₁, k, hp, fun _ => hbk, fun hr => hbk.blacken hr⟩
      have hlen := length_path_le (f :: q) b
      refine wp_mono (deleteFixupAsserting_spec hD ?_) ?_
      · unfold deficit
        split <;> omega
      · rintro _ m₂ ⟨t', h₂, hrb, hi, ho₂⟩
        exact ⟨t', h₂, hrb, hi, ⟨_, (ho₂ x hxt).trans hx₁, rfl⟩,
          (ho₁.mono (by simp)).trans (ho₂.mono fun v hv => List.mem_cons_of_mem x hv)⟩

/-- The root, when it lacks a child. -/
theorem rbtreeDeleteAsserting_root {b : CTree α} (h : Rep m κ s top [] (.join d c .nil x b))
    (hrb : (CTree.join d c .nil x b).RedBlack) :
    wp (rbtreeDeleteAsserting s fuel (.ref x)) (fun _ m' =>
      Rep m' κ s (.ref x) [] b.blacken ∧ b.blacken.RedBlack ∧
        (∃ nd', m'.node x = some nd' ∧ nd'.key = some 0) ∧
        SameOff (x :: b.inorder) m m') m := by
  have hfresh := h.nodup
  simp only [List.nodup_cons, CTree.mem_inorder_join, not_or, CPath.vals_nil, List.nil_append,
    CTree.nodup_inorder_join] at hfresh
  unfold rbtreeDeleteAsserting
  refine (wp_bind ..).mpr ((wp_of_run (deleteSubst_run fuel h)).mpr ?_)
  refine (wp_bind ..).mpr ((wp_of_run h.root_run).mpr ?_)
  rw [if_pos (by simp)]
  refine (wp_bind ..).mpr ((wp_of_run rfl).mpr ?_)
  obtain ⟨hs, hr, hn, hnil, -, hsub⟩ := h
  obtain ⟨hx, -, hb⟩ := at_join.mp hsub
  have h₁ : Rep { m with tree := { m.tree with root := ptr s b } } κ s (.ref x) [] b :=
    ⟨hs, rfl, by simp; tauto, hnil, trivial, hb.congr fun _ _ => rfl⟩
  refine (wp_bind ..).mpr (wp_mono (rbtreeBlack_spec h₁) ?_)
  rintro _ m₂ ⟨h₂, ho₂⟩
  refine wp_mono (rbtreeNodeInit_spec ((ho₂ x (by tauto)).trans hx)) ?_
  rintro _ m₃ ⟨hx₃, ho₃, ht₃⟩
  refine ⟨h₂.congr (fun v hv => ho₃ v ?_) ht₃, ?_, ⟨_, hx₃, rfl⟩,
    fun v hv => (ho₃ v ?_).trans (ho₂ v ?_)⟩
  · simp only [CPath.vals_nil, List.nil_append, CTree.inorder_blacken, List.mem_cons] at hv
    grind
  · obtain ⟨hc, k, hk⟩ := hrb
    obtain rfl : c = .black := by simpa using hc
    obtain ⟨j, -, -, hbj⟩ := CTree.balanced_join_black.mp hk
    exact hbj.redBlack_blacken
  · grind
  · grind

/-- Another node that lacks a child. -/
theorem rbtreeDeleteAsserting_leaf {f : Frame α} {b : CTree α}
    (h : Rep m κ s top (f :: q) (.join d c .nil x b))
    (hrb : (fill (f :: q) (.join d c .nil x b)).RedBlack)
    (hf : 2 * (fill (f :: q) (.join d c .nil x b)).inorder.length + 1 < fuel) :
    wp (rbtreeDeleteAsserting s fuel (.ref x)) (fun _ m' => ∃ t',
      Rep m' κ s top [] t' ∧ t'.RedBlack ∧ t'.inorder = (fill (f :: q) b).inorder ∧
        (∃ nd', m'.node x = some nd' ∧ nd'.key = some 0) ∧
        SameOff (s :: x :: (fill (f :: q) b).inorder) m m' ∧ SentinelKept s m m') m := by
  have hfresh := h.nodup
  simp only [List.nodup_cons, List.mem_append, CTree.mem_inorder_join, not_or, List.nodup_append,
    CTree.nodup_inorder_join] at hfresh
  obtain ⟨⟨hsp, -, hsx, hsb⟩, hpn, ⟨⟨-, hxb, -⟩, -, hbn⟩, hpd⟩ := hfresh
  have hxp : x ∉ CPath.vals (f :: q) := fun hx => hpd x hx x (by simp) rfl
  obtain ⟨n, hp, hbal, -⟩ := (redBlack_fill ..).mp hrb
  have hcol : (color (.ref x)).run m = some (c, m) := load_run h.node_eq (color_cell ..)
  have hroot := h.root_run
  have hsubst := deleteSubst_run fuel h
  have hne : Ptr.ref x ≠ ptr s (fill (f :: q) (.join d c .nil x b)) := ref_ne_root hxp
  have hx := h.node_eq
  obtain ⟨hs, hr, hn, hnil, hpath, hsub⟩ := h
  obtain ⟨-, -, hb⟩ := at_join.mp hsub
  rw [ptr_join] at hpath
  unfold rbtreeDeleteAsserting
  refine (wp_bind ..).mpr ((wp_of_run hsubst).mpr ?_)
  refine (wp_bind ..).mpr ((wp_of_run hroot).mpr ?_)
  rw [if_neg hne]
  refine (wp_bind ..).mpr ((wp_of_run (rbtreeIsRed_run hcol)).mpr ?_)
  refine (wp_bind ..).mpr (wp_mono (deleteUnlink_spec (b := ptr s b) hx (parent_cell ..) hpath hpn
    hxp (Ne.symm hsx)) ?_)
  rintro _ m₁ ⟨hp₁, ho₁, ht₁⟩
  have hx₁ := (ho₁ x hxp).trans hx
  have hb₁ : At m₁ κ s (.ref x) b := hb.congr fun v hv => ho₁ v fun hvp =>
    hpd v hvp v (by simp [hv]) rfl
  have hnil₁ : ∃ n, m₁.node s = some n ∧ n.color = some .black := by
    rw [ho₁ s hsp]
    exact hnil
  unfold deleteSplice
  rw [if_pos rfl]
  refine (wp_bind ..).mpr ((wp_bind ..).mpr ((wp_load hx₁ (parent_cell ..)).mpr ?_))
  refine wp_mono (setParent_spec hsb hbn hb₁ hnil₁ _) ?_
  rintro _ m₂ ⟨hb₂, hscr₂, hnil₂, ho₂, ⟨par, hsp₂⟩, ht₂⟩
  have hx₂ := (ho₂ x (by grind)).trans hx₁
  have h₂ : Rep m₂ κ s top (f :: q) b := by
    refine ⟨by rw [ht₂, ht₁, hs], ?_, ?_, hnil₂, ?_, hb₂⟩
    · rw [ht₂, ht₁, hr]
      exact ptr_fill_cons ..
    · simp only [List.nodup_cons, List.mem_append, List.nodup_append]
      grind
    · exact hp₁.congr fun v hv => ho₂ v (by grind)
  have hxt : x ∉ (fill (f :: q) b).inorder := by
    rw [mem_fill_iff]
    tauto
  have hlen : (fill (f :: q) b).inorder.length ≤
      (fill (f :: q) (.join d c .nil x b)).inorder.length := by
    rw [inorder_fill, inorder_fill]
    cases d <;> simp [CTree.join]
  refine wp_mono (deleteFinish_spec h₂ hscr₂ hx₂ (Ne.symm hsx) hxt hp hbal (by omega)) ?_
  rintro _ m₃ ⟨t', h₃, hrb₃, hi₃, hx₃, ho₃⟩
  have hst : s ∉ x :: (fill (f :: q) b).inorder := by
    simp only [List.mem_cons, mem_fill_iff, not_or]
    exact ⟨hsx, hsp, hsb⟩
  refine ⟨t', h₃, hrb₃, hi₃, hx₃, (ho₁.mono ?_).trans ((ho₂.mono ?_).trans (ho₃.mono ?_)),
    par, by rw [ho₃ s hst, hsp₂, ho₁ s hsp]⟩ <;> intro v hv
  · exact List.mem_cons_of_mem _ (List.mem_cons_of_mem _ (mem_fill_iff.mpr (Or.inl hv)))
  · simp only [List.mem_cons, mem_fill_iff] at hv ⊢
    tauto
  · simp only [List.mem_cons] at hv ⊢
    tauto

/-- The first frame above the hole that `y` leaves, before and after `y` takes the
place of `x`. -/
theorem replace_head {l : CTree α} (ps : CPath α) (hx : x ∉ ps.vals) :
    ∃ f q f' q', ps ++ ⟨.right, c, x, l⟩ :: p = f :: q ∧ ps ++ ⟨.right, c, y, l⟩ :: p = f' :: q' ∧
      Ptr.ref f'.val = if Ptr.ref f.val = Ptr.ref x then Ptr.ref y else Ptr.ref f.val := by
  cases ps with
  | nil => exact ⟨_, _, _, _, rfl, rfl, by simp⟩
  | cons g ps =>
      refine ⟨_, _, _, _, rfl, rfl, ?_⟩
      rw [if_neg (by simp only [CPath.vals_cons] at hx; grind)]

/-- A node with two children: the first node of its right subtree takes its
place. -/
theorem rbtreeDeleteAsserting_inner {l r : CTree α} (h : Rep m κ s top p (.node c l x r))
    (hl : l ≠ .nil) (hr : r ≠ .nil) (hrb : (fill p (.node c l x r)).RedBlack)
    (hf : 2 * (fill p (.node c l x r)).inorder.length + 1 < fuel) :
    wp (rbtreeDeleteAsserting s fuel (.ref x)) (fun _ m' => ∃ t',
      Rep m' κ s top [] t' ∧ t'.RedBlack ∧
        t'.inorder = p.before ++ (l.inorder ++ r.inorder) ++ p.after ∧
        (∃ nd', m'.node x = some nd' ∧ nd'.key = some 0) ∧
        SameOff (s :: (fill p (.node c l x r)).inorder) m m' ∧ SentinelKept s m m') m := by
  have hlen : r.inorder.length ≤ (fill p (.node c l x r)).inorder.length := by
    rw [inorder_fill]
    simp only [CTree.inorder_node, List.length_append, List.length_cons]
    omega
  have hfr : r.inorder.length < fuel := by omega
  obtain ⟨ps, c', y, r', rfl, hps, hsubst⟩ := deleteSubst_run_inner h hl hr hfr
  -- the hole at `y`
  have hY : Rep m κ s top (ps ++ ⟨.right, c, x, l⟩ :: p) (.node c' .nil y r') := by
    rw [Rep.fill_iff, fill_append, ← Rep.fill_iff]
    exact Rep.up.mpr h
  have hfill : fill p (.node c l x (fill ps (.node c' .nil y r'))) =
      fill (ps ++ ⟨.right, c, x, l⟩ :: p) (.node c' .nil y r') := by
    rw [fill_append]
    rfl
  have hfresh := hY.nodup
  simp only [CPath.vals_append, CPath.vals_cons, List.cons_append, List.append_assoc,
    CTree.inorder_node, CTree.inorder_nil, List.nil_append, List.nodup_cons, List.mem_append,
    List.mem_cons, List.nodup_append, not_or] at hfresh
  obtain ⟨n, hP, hbal, -⟩ := (redBlack_fill ..).mp (hfill ▸ hrb)
  have hxps : x ∉ ps.vals := by grind
  obtain ⟨f, q, f', q', hfq, hfq', hval⟩ :=
    replace_head (c := c) (x := x) (y := y) (l := l) (p := p) ps hxps
  have hP' : CPath.Balanced (f' :: q') n := by
    rw [← hfq']
    refine (CPath.balanced_congr ps ?_ ?_ n).mp hP
    · rfl
    · exact fun _ => Iff.rfl
  have hyP : y ∉ CPath.vals (f :: q) := by
    rw [← hfq, CPath.vals_append, CPath.vals_cons]
    grind
  have hcol : (color (.ref y)).run m = some (c', m) :=
    load_run (hY.node_eq (d := .left)) (color_cell ..)
  have hroot := hY.root_run
  have hne : Ptr.ref y ≠ ptr s (fill (f :: q) (.node c' .nil y r')) := ref_ne_root hyP
  have hy : m.node y = some (cell .left (.ref s) (ptr s r') (.ref f.val) (κ y) c') := by
    have := hY.node_eq (d := .left)
    rwa [hfq] at this
  rw [hfq] at hroot
  obtain ⟨hs, hr, hn, hnil, hpath, hsub⟩ := hY
  obtain ⟨-, -, hr'⟩ := hsub
  rw [ptr_node, hfq] at hpath
  unfold rbtreeDeleteAsserting
  refine (wp_bind ..).mpr ((wp_of_run hsubst).mpr ?_)
  refine (wp_bind ..).mpr ((wp_of_run hroot).mpr ?_)
  rw [if_neg hne]
  refine (wp_bind ..).mpr ((wp_of_run (rbtreeIsRed_run hcol)).mpr ?_)
  -- `y` leaves its place
  refine (wp_bind ..).mpr (wp_mono (deleteUnlink_spec (b := ptr s r') hy (parent_cell ..) hpath
    (hfq ▸ by simp only [CPath.vals_append, CPath.vals_cons]; grind) hyP (by grind)) ?_)
  rintro _ m₁ ⟨hp₁, ho₁, ht₁⟩
  have hy₁ := (ho₁ y hyP).trans hy
  have hr₁ : At m₁ κ s (.ref y) r' := hr'.congr fun v hv => ho₁ v (by
    rw [← hfq, CPath.vals_append, CPath.vals_cons]
    grind)
  have hnil₁ : ∃ n, m₁.node s = some n ∧ n.color = some .black := by
    rw [ho₁ s (by rw [← hfq, CPath.vals_append, CPath.vals_cons]; grind)]
    exact hnil
  -- the parent of `r'` is the frame above the hole in the new tree
  refine (wp_bind ..).mpr (deleteSplice_replace (by grind) hy₁ (parent_cell ..) hval ?_)
  refine wp_mono (setParent_spec (by grind) (by grind) hr₁ hnil₁ _) ?_
  rintro _ m₂ ⟨hr₂, hscr₂, hnil₂, ho₂, ⟨par', hsp₂⟩, ht₂⟩
  rw [← hfq] at hp₁ ho₁ hyP
  obtain ⟨hps₁, hx₁, hl₁, hpx₁⟩ := pathAt_append.mp hp₁
  have hx₂ := (ho₂ x (by grind)).trans hx₁
  have hy₂ := (ho₂ y (by grind)).trans hy₁
  have hR₂ : ∃ par, At m₂ κ s par (fill ps r') := by
    cases ps with
    | nil => exact ⟨_, hr₂⟩
    | cons g ps =>
        obtain ⟨rfl, rfl⟩ := List.cons_eq_cons.mp hfq'
        refine ⟨.ref x, at_fill.mpr ⟨hps₁.congr fun v hv => ho₂ v ?_, hr₂⟩⟩
        grind
  obtain ⟨par, hR₂⟩ := hR₂
  have hmemR : ∀ v, v ∈ (fill ps r').inorder ↔ v ∈ ps.vals ∨ v ∈ r'.inorder :=
    fun v => mem_fill_iff
  have hRn : (fill ps r').inorder.Nodup := by
    rw [(perm_inorder_fill ps r').nodup_iff, List.nodup_append]
    grind
  have hn₂ : (s :: x :: y :: (p.vals ++ (l.inorder ++ (fill ps r').inorder))).Nodup := by
    simp only [List.nodup_cons, List.nodup_append, List.mem_cons, List.mem_append, hmemR]
    grind
  have hroot₂ : m₂.tree.root = ptr s (fill p (.node c l x (fill ps r'))) := by
    rw [ht₂, ht₁, hr, fill_append]
    exact ptr_fill (by simp [Frame.plug]) p
  refine wp_mono (deleteReplace_spec (by rw [ht₂, ht₁, hs]) hx₂ hy₂ (key_cell ..)
    (hl₁.congr fun v hv => ho₂ v (by grind)) hR₂ (hpx₁.congr fun v hv => ho₂ v (by grind))
    hroot₂ hn₂ hnil₂) ?_
  rintro _ m₃ ⟨h₃, ho₃⟩
  have h₃' : Rep m₃ κ s top (f' :: q') r' := by
    rw [← hfq', Rep.fill_iff, fill_append, ← Rep.fill_iff]
    exact Rep.up.mpr h₃
  have hscr₃ := hscr₂.congr (ho₃ s (by grind))
  have hx₃ := (ho₃ x (by grind)).trans hx₂
  have hi : (fill (f' :: q') r').inorder = p.before ++
      (l.inorder ++ (fill ps (.node c' .nil y r')).inorder) ++ p.after := by
    rw [← hfq']
    exact inorder_replace hps
  have hmem : ∀ v, v ∈ (fill (f' :: q') r').inorder ↔
      v ∈ p.vals ∨ v ∈ l.inorder ∨ v = y ∨ v ∈ ps.vals ∨ v ∈ r'.inorder := by
    intro v
    rw [← hfq', mem_fill_iff, CPath.vals_append, CPath.vals_cons]
    grind
  have hlen' : (fill (f' :: q') r').inorder.length + 1 =
      (fill p (.node c l x (fill ps (.node c' .nil y r')))).inorder.length := by
    rw [hi, inorder_fill p]
    simp only [CTree.inorder_node, List.length_append, List.length_cons]
    omega
  refine wp_mono (deleteFinish_spec (d := .left) h₃' hscr₃ hx₃ (by grind) (by rw [hmem]; grind)
    hP' hbal (by omega)) ?_
  rintro _ m₄ ⟨t', h₄, hrb₄, hi₄, hx₄, ho₄⟩
  refine ⟨t', h₄, hrb₄, hi₄.trans hi, hx₄, fun v hv => ?_, par', ?_⟩
  rotate_left
  · rw [ho₄ s (by rw [List.mem_cons, hmem]; grind), ho₃ s (by grind), hsp₂,
      ho₁ s (by rw [CPath.vals_append, CPath.vals_cons]; grind)]
  simp only [List.mem_cons, mem_fill_iff, CTree.inorder_node, List.mem_append, not_or] at hv
  rw [ho₄ v (by rw [List.mem_cons, hmem]; grind), ho₃ v (by grind), ho₂ v (by grind),
    ho₁ v (by rw [CPath.vals_append, CPath.vals_cons]; grind)]

/-- The root's parent link after the deletion of `x`: a child that becomes the
root keeps its link to the node that was. -/
def topAfter (top : Ptr α) (x : α) : CTree α → Ptr α
  | .nil => top
  | .node _ l y r => if x = y ∧ (l = .nil ∨ r = .nil) then .ref x else top

/-- Below the root, or with two children, a deletion leaves the root's parent
link alone. -/
theorem topAfter_fill {f : Frame α} (hx : x ∉ CPath.vals (f :: q)) (t : CTree α) :
    topAfter top x (fill (f :: q) t) = top := by
  induction q generalizing f t with
  | nil =>
      obtain ⟨d, c, y, w⟩ := f
      have hxy : x ≠ y := by
        rintro rfl
        simp at hx
      cases d <;> simp [Frame.plug, CTree.join, topAfter, hxy]
  | cons g q ih =>
      refine ih (f := g) ?_ (f.plug t)
      simp only [CPath.vals_cons, List.mem_append, List.mem_cons, List.cons_append] at hx ⊢
      tauto

/-- `rbtree_delete` of a node of a red-black tree. -/
theorem rbtreeDeleteAsserting_spec (h : Rep m κ s top [] t) (hrb : t.RedBlack) (hx : x ∈ t.inorder)
    (hf : 2 * t.inorder.length + 1 < fuel) :
    wp (rbtreeDeleteAsserting s fuel (.ref x)) (fun _ m' => ∃ t',
      Rep m' κ s (topAfter top x t) [] t' ∧ t'.RedBlack ∧ t'.inorder = t.inorder.erase x ∧
        (∃ nd', m'.node x = some nd' ∧ nd'.key = some 0) ∧
        SameOff (s :: t.inorder) m m' ∧ SentinelKept s m m') m := by
  obtain ⟨p, c, l, r, rfl⟩ := exists_fill hx
  have hrep := Rep.fill_iff.mpr h
  have hfresh := hrep.nodup
  simp only [List.nodup_cons, List.mem_append, CTree.inorder_node, List.mem_cons, not_or,
    List.nodup_append] at hfresh
  have hxp : x ∉ p.vals := fun hx => by grind
  have herase : (fill p (.node c l x r)).inorder.erase x =
      p.before ++ (l.inorder ++ r.inorder) ++ p.after := by
    rw [inorder_fill_erase hxp (by simp), CTree.inorder_erase (by grind)]
  by_cases hnil : l = .nil ∨ r = .nil
  · -- a child is missing
    obtain ⟨d, b, hj, hb⟩ : ∃ d b, CTree.node c l x r = .join d c .nil x b ∧
        l.inorder ++ r.inorder = b.inorder := by
      rcases hnil with rfl | rfl
      · exact ⟨.left, r, rfl, rfl⟩
      · exact ⟨.right, l, rfl, List.append_nil _⟩
    rw [hb, ← inorder_fill] at herase
    rw [herase]
    rw [hj] at hrep hrb hf ⊢
    cases p with
    | nil =>
        have htop : topAfter top x (.join d c .nil x b) = .ref x := by
          cases d <;> simp [topAfter, CTree.join]
        refine wp_mono (rbtreeDeleteAsserting_root hrep hrb) ?_
        rintro _ m' ⟨h', hrb', hx', ho⟩
        have hsx : s ∉ x :: b.inorder := by
          have hn := hrep.nodup
          simp only [List.nodup_cons, List.mem_append, CTree.mem_inorder_join, not_or] at hn
          simp only [List.mem_cons, not_or]
          tauto
        refine ⟨b.blacken, by rwa [fill_nil, htop], hrb', CTree.inorder_blacken b, hx',
          ho.mono fun v hv => ?_, .of_eq (ho s hsx)⟩
        simp only [fill_nil, List.mem_cons, CTree.mem_inorder_join] at hv ⊢
        tauto
    | cons f q =>
        refine wp_mono (rbtreeDeleteAsserting_leaf hrep hrb hf) ?_
        rintro _ m' ⟨t', h', hrb', hi', hx', ho, hkept⟩
        refine ⟨t', by rwa [topAfter_fill hxp], hrb', hi', hx', ho.mono fun v hv => ?_, hkept⟩
        simp only [List.mem_cons, mem_fill_iff, CTree.mem_inorder_join] at hv ⊢
        tauto
  · obtain ⟨hl, hr⟩ := not_or.mp hnil
    refine wp_mono (rbtreeDeleteAsserting_inner hrep hl hr hrb hf) ?_
    rintro _ m' ⟨t', h', hrb', hi', hx', ho⟩
    have htop : topAfter top x (fill p (.node c l x r)) = top := by
      cases p with
      | nil => simp [topAfter, hl, hr]
      | cons f q => exact topAfter_fill hxp _
    exact ⟨t', by rwa [htop], hrb', hi'.trans herase.symm, hx', ho⟩

theorem rbtreeDelete_spec (h : Rep m κ s top [] t) (hrb : t.RedBlack) (hx : x ∈ t.inorder)
    (hf : 2 * t.inorder.length + 1 < fuel) :
    wp (rbtreeDelete fuel (.ref x)) (fun _ m' => ∃ t',
      Rep m' κ s (topAfter top x t) [] t' ∧ t'.RedBlack ∧ t'.inorder = t.inorder.erase x ∧
        (∃ nd', m'.node x = some nd' ∧ nd'.key = some 0) ∧
        SameOff (s :: t.inorder) m m' ∧ SentinelKept s m m') m :=
  (rbtreeDeleteAsserting_sim s fuel _).wp (rbtreeDeleteAsserting_spec h hrb hx hf)

end

end Bitzer
