import Bitzer.Rbtree.Rep

/-!
# Recolouring and rotation

The two changes of shape the fix-up loops are made of, as steps between
represented trees: `setColor_spec` changes the colour of one node and
`rotate_spec` turns one edge. Neither touches the sentinel, a key or a node
outside the tree.
-/

namespace Bitzer

open Lib

variable {α : Type} [DecidableEq α]

section
variable {m : Mem α} {κ : α → UInt64} {s : α} {top par q : Ptr α} {p : CPath α}
  {t : CTree α} {d : Side} {c : Color} {a b : CTree α} {x y : α}

/-- Colouring the root of the subtree at the hole. -/
theorem setColor_spec (h : Rep m κ s top p (.join d c a x b)) (c' : Color) :
    wp (setColor (.ref x) c') (fun _ m' =>
      Rep m' κ s top p (.join d c' a x b) ∧ SameOff [x] m m') m := by
  obtain ⟨hs, hr, hn, ⟨sn, hsn, hsc⟩, hp, hsub⟩ := h
  obtain ⟨hx, ha, hb⟩ := at_join.mp hsub
  have hi := CTree.inorder_join_color d c' c a x b
  simp only [List.nodup_cons, List.mem_append, CTree.mem_inorder_join, List.nodup_append,
    CTree.nodup_inorder_join] at hn
  obtain ⟨hsp, _, ⟨⟨hxa, hxb, _⟩, _, _⟩, hpx⟩ := hn
  refine (wp_store hx).mpr ⟨⟨hs, ?_, ?_, ?_, ?_, ?_⟩, SameOff.set (by simp) _ _⟩
  · rw [Mem.set_tree, hr]
    exact ptr_fill (by simp) p
  · simp only [List.nodup_cons, List.mem_append, List.nodup_append, hi,
      CTree.mem_inorder_join, CTree.nodup_inorder_join]
    tauto
  · refine ⟨sn, ?_, hsc⟩
    rw [Mem.set_other _ _ (by tauto), hsn]
  · rw [ptr_join] at hp ⊢
    exact hp.congr fun y hy => Mem.set_other _ _ (by grind)
  · refine at_join.mpr ⟨?_, ?_, ?_⟩
    · simp
    · exact ha.congr fun y hy => Mem.set_other _ _ (by grind)
    · exact hb.congr fun y hy => Mem.set_other _ _ (by grind)

/-- Blackening the subtree at the hole; the sentinel is black already. -/
theorem rbtreeBlack_spec (h : Rep m κ s top p t) :
    wp (rbtreeBlack (ptr s t)) (fun _ m' =>
      Rep m' κ s top p t.blacken ∧ SameOff t.inorder m m') m := by
  cases t with
  | nil =>
      obtain ⟨sn, hsn, hsc⟩ := h.nil_black
      refine (wp_store hsn).mpr ?_
      have hset : sn.setColor .black = sn := by
        cases sn
        simp_all [RbtreeNode.setColor]
      have hm : m.set s sn = m := by
        simp only [Mem.set, ← hsn, Function.update_eq_self]
      rw [hset, hm]
      exact ⟨h, SameOff.refl _ _⟩
  | node c l x r =>
      refine wp_mono (setColor_spec (d := .left) h .black) ?_
      rintro _ m' ⟨hrep, ho⟩
      exact ⟨hrep, ho.mono (by simp)⟩

theorem setColor_top_spec {f : Frame α} (h : Rep m κ s top (f :: p) t) (c' : Color) :
    wp (setColor (.ref f.val) c') (fun _ m' =>
      Rep m' κ s top ({ f with color := c' } :: p) t ∧ SameOff [f.val] m m') m := by
  refine wp_mono (setColor_spec (Rep.up.mp h) c') ?_
  rintro _ m' ⟨hrep, ho⟩
  exact ⟨Rep.up.mpr hrep, ho⟩

theorem setColor_top_top_spec {f g : Frame α} (h : Rep m κ s top (f :: g :: p) t) (c' : Color) :
    wp (setColor (.ref g.val) c') (fun _ m' =>
      Rep m' κ s top (f :: { g with color := c' } :: p) t ∧ SameOff [g.val] m m') m := by
  refine wp_mono (setColor_top_spec (Rep.up.mp h) c') ?_
  rintro _ m' ⟨hrep, ho⟩
  exact ⟨Rep.up.mpr hrep, ho⟩

/-- `adopt` gives the root of a subtree its new parent link. -/
theorem adopt_spec (hs : m.tree.sentinel = .ref s) (hf : s ∉ b.inorder)
    (hn : b.inorder.Nodup) (hb : At m κ s par b) :
    wp (adopt (ptr s b) q) (fun _ m' =>
      At m' κ s q b ∧ SameOff b.inorder m m' ∧ m'.tree = m.tree) m := by
  unfold adopt
  refine (wp_bind ..).mpr ((wp_of_run rfl).mpr ?_)
  rw [hs]
  cases b with
  | nil =>
      rw [if_neg (by simp)]
      exact (wp_pure ..).mpr ⟨trivial, SameOff.refl _ _, rfl⟩
  | node c l x r =>
      have hx : ptr s (.node c l x r) ≠ .ref s := fun h => by
        rw [ptr_eq_sentinel hf] at h
        cases h
      obtain ⟨hx', hl, hr⟩ := hb
      simp only [CTree.inorder_node, List.nodup_append, List.nodup_cons, List.mem_cons] at hn
      rw [if_pos hx]
      refine (wp_store hx').mpr ⟨⟨by simp, ?_, ?_⟩, SameOff.set (by simp) _ _, rfl⟩
      · exact hl.congr fun y hy => Mem.set_other _ _ (by grind)
      · exact hr.congr fun y hy => Mem.set_other _ _ (by grind)

/-- `relink` puts `y` where `x` hung. -/
theorem relink_spec {n : RbtreeNode α} (e : Side) (hx : m.node x = some n)
    (hpar : n.parent = some (parOf top p)) (hp : PathAt m κ s top p (.ref x))
    (hn : p.vals.Nodup) (hxp : x ∉ p.vals) (hxs : x ≠ s) (t : CTree α)
    (hr : m.tree.root = ptr s (fill p t)) (hxt : ptr s t = .ref x) :
    wp (relink e (.ref x) (.ref y)) (fun _ m' =>
      PathAt m' κ s top p (.ref y) ∧ SameOff p.vals m m' ∧
        m'.tree.sentinel = m.tree.sentinel ∧
        ∀ t', ptr s t' = .ref y → m'.tree.root = ptr s (fill p t')) m := by
  unfold relink
  refine (wp_bind ..).mpr ((wp_of_run rfl).mpr ?_)
  cases p with
  | nil =>
      rw [if_pos (by rw [hr]; exact hxt.symm)]
      refine ⟨(), _, rfl, trivial, SameOff.refl _ _, rfl, ?_⟩
      intro t' ht'
      exact ht'.symm
  | cons f p =>
      obtain ⟨g, c, w, sib⟩ := f
      obtain ⟨hw, hsib, hp⟩ := hp
      simp only [CPath.vals_cons, List.mem_cons, List.mem_append, not_or] at hxp hn
      rw [if_neg (by rw [hr]; exact ref_ne_root (by simpa [and_assoc] using hxp))]
      refine (wp_bind ..).mpr ((wp_load hx hpar).mpr ?_)
      have hroot : ∀ t', m.tree.root = ptr s (fill (⟨g, c, w, sib⟩ :: p) t') := fun t' => by
        rw [hr]
        exact ptr_fill_cons _ _ _ _
      have hsame : ∀ n', SameOff (CPath.vals (⟨g, c, w, sib⟩ :: p)) m (m.set w n') :=
        fun n' => SameOff.set (by simp) _ _
      -- the link of `w` that is overwritten is the one that led to `x`
      have hput : PathAt (m.set w (cell g (.ref y) (ptr s sib) (parOf top p) (κ w) c)) κ s top
          (⟨g, c, w, sib⟩ :: p) (.ref y) := by
        refine ⟨Mem.set_same .., ?_, ?_⟩
        · exact hsib.congr fun z hz => Mem.set_other _ _ (by grind)
        · exact hp.congr fun z hz => Mem.set_other _ _ (by grind)
      by_cases hg : g = e
      · subst hg
        refine (wp_bind ..).mpr ((wp_load hw (link_cell ..)).mpr ?_)
        rw [if_pos rfl]
        refine (wp_bind ..).mpr ((wp_load hx hpar).mpr ?_)
        refine (wp_store hw).mpr ?_
        rw [setLink_cell]
        exact ⟨hput, hsame _, rfl, fun t' _ => hroot t'⟩
      · obtain rfl := Side.eq_other_of_ne (Ne.symm hg)
        refine (wp_bind ..).mpr ((wp_load hw (link_other_cell ..)).mpr ?_)
        rw [if_neg (ref_ne_ptr (by tauto) hxs)]
        refine (wp_bind ..).mpr ((wp_load hx hpar).mpr ?_)
        refine (wp_store hw).mpr ?_
        rw [Side.other_other, setLink_cell]
        exact ⟨hput, hsame _, rfl, fun t' _ => hroot t'⟩

/-- The rotation turns the edge between `x` and the root `y` of its child away
from side `d`. -/
theorem rotate_spec {c' : Color} {z : CTree α}
    (h : Rep m κ s top p (.join d c a x (.join d c' b y z))) :
    wp (rbtreeRotate d (.ref x)) (fun _ m' =>
      Rep m' κ s top p (.join d c' (.join d c a x b) y z) ∧
        SameOff (p.vals ++ (CTree.join d c a x (.join d c' b y z)).inorder) m m') m := by
  obtain ⟨hs, hr, hn, ⟨sn, hsn, hsc⟩, hp, hsub⟩ := h
  obtain ⟨hx, ha, hsub'⟩ := at_join.mp hsub
  obtain ⟨hy, hb, hz⟩ := at_join.mp hsub'
  have hi := CTree.inorder_rotate d c c' c' c a x b y z
  have hn' : (s :: (p.vals ++ (CTree.join d c' (CTree.join d c a x b) y z).inorder)).Nodup := by
    rw [← hi]
    exact hn
  simp only [ptr_join] at hx hp
  simp only [List.nodup_cons, List.mem_append, CTree.mem_inorder_join, List.nodup_append,
    CTree.nodup_inorder_join, List.Disjoint] at hn
  have hxy : x ≠ y := by grind
  unfold rbtreeRotate
  refine (wp_bind ..).mpr ((wp_load hx (link_other_cell ..)).mpr ?_)
  refine (wp_bind ..).mpr ((wp_load hy (link_cell ..)).mpr ?_)
  refine (wp_bind ..).mpr ((wp_store hx).mpr ?_)
  rw [setLink_other_cell]
  generalize hm₁ : m.set x _ = m₁
  have hx₁ : m₁.node x = some (cell d (ptr s a) (ptr s b) (parOf top p) (κ x) c) := by
    simp [← hm₁]
  have ho₁ : SameOff [x] m m₁ := hm₁ ▸ SameOff.set (by simp) _ _
  have hy₁ := (ho₁ y (by simp [hxy.symm])).trans hy
  have hb₁ : At m₁ κ s (.ref y) b := hb.congr fun v hv => ho₁ v (by grind)
  have hs₁ : m₁.tree.sentinel = .ref s := by rw [← hm₁]; exact hs
  refine (wp_bind ..).mpr ((wp_load hy₁ (link_cell ..)).mpr ?_)
  refine (wp_bind ..).mpr (wp_mono (adopt_spec (q := .ref x) hs₁ (by tauto) (by tauto) hb₁) ?_)
  rintro _ m₂ ⟨hb₂, ho₂, ht₂⟩
  have hx₂ := (ho₂ x (by tauto)).trans hx₁
  have hy₂ := (ho₂ y (by tauto)).trans hy₁
  refine (wp_bind ..).mpr ((wp_load hx₂ (parent_cell ..)).mpr ?_)
  refine (wp_bind ..).mpr ((wp_store hy₂).mpr ?_)
  rw [setParent_cell]
  generalize hm₃ : m₂.set y _ = m₃
  have hy₃ : m₃.node y = some (cell d (ptr s b) (ptr s z) (parOf top p) (κ y) c') := by
    simp [← hm₃]
  have ho₃ : SameOff [y] m₂ m₃ := hm₃ ▸ SameOff.set (by simp) _ _
  have hx₃ := (ho₃ x (by simp [hxy])).trans hx₂
  have ho₁₃ : SameOff (x :: y :: b.inorder) m m₃ :=
    (ho₁.mono (by simp)).trans ((ho₂.mono (by grind)).trans (ho₃.mono (by simp)))
  have hp₃ : PathAt m₃ κ s top p (.ref x) := hp.congr fun v hv => ho₁₃ v (by grind)
  have ht₃ : m₃.tree = m.tree := by rw [← hm₃, Mem.set_tree, ht₂, ← hm₁, Mem.set_tree]
  refine (wp_bind ..).mpr (wp_mono (relink_spec d hx₃ (parent_cell ..) hp₃ (by tauto) (by grind)
    (by tauto) _ (ht₃ ▸ hr) (ptr_join ..)) ?_)
  rintro _ m₄ ⟨hp₄, ho₄, hs₄, hr₄⟩
  have hx₄ := (ho₄ x (by grind)).trans hx₃
  have hy₄ := (ho₄ y (by grind)).trans hy₃
  refine (wp_bind ..).mpr ((wp_store hy₄).mpr ?_)
  rw [setLink_cell]
  refine (wp_store ((Mem.set_other _ _ hxy).trans hx₄)).mpr ?_
  rw [setParent_cell]
  -- the final memory: `x` and `y` are rewritten, `b` has a new parent, the path a new hole
  have ho₅ : ∀ n n', SameOff (x :: y :: b.inorder ++ p.vals) m ((m₄.set y n).set x n') :=
    fun n n' => (ho₁₃.mono (by grind)).trans ((ho₄.mono (by grind)).trans
      ((SameOff.set (by simp) _ n).trans (SameOff.set (by simp) _ n')))
  refine ⟨⟨?_, ?_, hn', ⟨sn, ?_, hsc⟩, ?_, ?_⟩, (ho₅ _ _).mono ?_⟩
  · simp only [Mem.set_tree, hs₄, ht₃, hs]
  · simp only [Mem.set_tree]
    exact hr₄ _ (ptr_join ..)
  · rw [ho₅ _ _ s (by grind), hsn]
  · rw [ptr_join]
    refine hp₄.congr fun v hv => ?_
    rw [Mem.set_other _ _ (by grind), Mem.set_other _ _ (by grind)]
  · refine at_join.mpr ⟨?_, at_join.mpr ⟨?_, ?_, ?_⟩, ?_⟩
    · rw [Mem.set_other _ _ hxy.symm, Mem.set_same, ptr_join]
    · rw [Mem.set_same]
    · exact ha.congr fun v hv => ho₅ _ _ v (by grind)
    · refine hb₂.congr fun v hv => ?_
      rw [Mem.set_other _ _ (by grind), Mem.set_other _ _ (by grind), ho₄ v (by grind),
        ho₃ v (by grind)]
    · exact hz.congr fun v hv => ho₅ _ _ v (by grind)
  · simp only [List.mem_append, List.mem_cons, CTree.mem_inorder_join]
    tauto

end

end Bitzer
