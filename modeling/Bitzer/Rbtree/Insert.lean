import Bitzer.Rbtree.Rotate

/-!
# Insertion

`insert_spec`: on a red-black tree, `rbtree_insert` of a node outside it
returns, and the tree it leaves is red-black and has the node in the place the
key asks for. The re-balance loop keeps one invariant, `Reddened`: the tree is
red-black but for the red subtree at the hole, whose parent may be red too; the
hole moves up at every iteration.
-/

namespace Bitzer

open Lib

variable {α : Type} [DecidableEq α]

section
variable {m : Mem α} {κ : α → UInt64} {s : α} {top : Ptr α} {p q : CPath α}
  {t : CTree α} {d : Side} {c : Color} {x y : α} {n : Nat} {fuel : Nat}

/-- The descent ends at the slot of the new key. -/
theorem insertDescend_run {nd : RbtreeNode α} (hx : m.node x = some nd)
    (hk : nd.key = some (κ x)) (h : Rep m κ s top p t) (ht : t ≠ .nil)
    (hf : t.inorder.length < fuel) :
    ∃ f q, t.slot (fun y => decide (κ x < κ y)) p = f :: q ∧
      (insertDescend (.ref x) fuel (ptr s t)).run m = some ((.ref f.val, f.side), m) := by
  induction t generalizing p fuel with
  | nil => exact absurd rfl ht
  | node c l y r ihl ihr =>
      cases fuel with
      | zero => simp at hf
      | succ fuel =>
      have hy := h.node_eq (d := .left)
      have hkx : (key (.ref x)).run m = some (κ x, m) := load_run hx hk
      have hky : (key (.ref y)).run m = some (κ y, m) := load_run hy (key_cell ..)
      have hs := h.sentinel_run
      have hfresh := h.nodup
      simp only [List.nodup_cons, List.mem_append, CTree.inorder_node, List.mem_cons, not_or]
        at hfresh
      simp only [CTree.inorder_node, List.length_append, List.length_cons] at hf
      unfold insertDescend
      simp only [ptr_node, StateT.run_bind, hkx, hky, Option.bind_eq_bind, Option.bind_some]
      by_cases hlt : κ x < κ y
      · have hc : (child .left (.ref y)).run m = some (ptr s l, m) :=
          load_run hy (link_cell ..)
        simp only [hlt, if_true, hc, hs, Option.bind_some, CTree.slot, decide_true]
        by_cases hl : l = .nil
        · subst hl
          exact ⟨_, _, rfl, by rw [if_pos (ptr_nil s)]; rfl⟩
        · rw [if_neg (by rw [ptr_eq_sentinel (by tauto)]; exact hl)]
          exact ihl (Rep.up.mpr h) hl (by omega)
      · have hc : (child .right (.ref y)).run m = some (ptr s r, m) :=
          load_run hy (link_other_cell .left ..)
        simp only [hlt, if_false, hc, hs, Option.bind_some, CTree.slot, decide_false,
          Bool.false_eq_true]
        by_cases hr : r = .nil
        · subst hr
          exact ⟨_, _, rfl, by rw [if_pos (ptr_nil s)]; rfl⟩
        · rw [if_neg (by rw [ptr_eq_sentinel (by tauto)]; exact hr)]
          exact ihr (Rep.up.mpr h) hr (by omega)

/-- The new node fills the hole. -/
theorem insertAttach_spec {f : Frame α} {nd : RbtreeNode α} (hx : m.node x = some nd)
    (hk : nd.key = some (κ x)) (h : Rep m κ s top (f :: q) .nil) (hxs : x ≠ s)
    (hxq : x ∉ CPath.vals (f :: q)) :
    wp (insertAttach (.ref f.val) f.side (.ref x)) (fun _ m' =>
      Rep m' κ s top (f :: q) (.node .red .nil x .nil) ∧
        SameOff (x :: CPath.vals (f :: q)) m m') m := by
  obtain ⟨d, c, y, w⟩ := f
  obtain ⟨hs, hr, hn, ⟨sn, hsn, hsc⟩, ⟨hy, hw, hq⟩, -⟩ := h
  simp only [CPath.vals_cons, List.mem_cons, List.mem_append, not_or, List.cons_append,
    List.nodup_cons, CTree.inorder_nil, List.append_nil] at hxq hn
  unfold insertAttach
  refine (wp_bind ..).mpr ((wp_store hy).mpr ?_)
  rw [setLink_cell]
  generalize hm₁ : m.set y _ = m₁
  have hy₁ : m₁.node y = some (cell d (.ref x) (ptr s w) (parOf top q) (κ y) c) := by
    simp [← hm₁]
  have ho₁ : SameOff [y] m m₁ := hm₁ ▸ SameOff.set (by simp) _ _
  have ht₁ : m₁.tree = m.tree := by rw [← hm₁, Mem.set_tree]
  -- the remaining writes all go to `x`
  refine (wp_bind ..).mpr ((wp_store ((ho₁ x (by grind)).trans hx)).mpr ?_)
  refine (wp_bind ..).mpr ((wp_of_run rfl).mpr ?_)
  refine (wp_bind ..).mpr ((wp_store (Mem.set_same ..)).mpr ?_)
  refine (wp_bind ..).mpr ((wp_of_run rfl).mpr ?_)
  refine (wp_bind ..).mpr ((wp_store (Mem.set_same ..)).mpr ?_)
  refine (wp_store (Mem.set_same ..)).mpr ?_
  simp only [Mem.set_tree, ht₁, hs]
  have ho : ∀ n₁ n₂ n₃ n₄, SameOff [x, y] m
      ((((m₁.set x n₁).set x n₂).set x n₃).set x n₄) := fun n₁ n₂ n₃ n₄ =>
    (ho₁.mono (by simp)).trans ((SameOff.set (by simp) _ _).trans ((SameOff.set (by simp) _ _).trans
      ((SameOff.set (by simp) _ _).trans (SameOff.set (by simp) _ _))))
  refine ⟨⟨?_, ?_, ?_, ⟨sn, ?_, hsc⟩, ⟨?_, ?_, ?_⟩, ?_, trivial, trivial⟩,
    (ho _ _ _ _).mono (by simp)⟩
  · simp only [Mem.set_tree, ht₁, hs]
  · simp only [Mem.set_tree, ht₁, hr]
    exact ptr_fill_cons _ _ _ _
  · simp only [CPath.vals_cons, List.cons_append, List.nodup_cons, List.mem_cons,
      List.mem_append, CTree.inorder_node, CTree.inorder_nil, List.nil_append,
      List.nodup_append]
    grind
  · rw [ho _ _ _ _ s (by grind), hsn]
  · simp only [Mem.set_other _ _ (show y ≠ x by grind)]
    exact hy₁
  · exact hw.congr fun v hv => ho _ _ _ _ v (by grind)
  · exact hq.congr fun v hv => ho _ _ _ _ v (by grind)
  · rw [Mem.set_same]
    obtain ⟨l, r, par, k, cl⟩ := nd
    obtain rfl : k = some (κ x) := hk
    rfl

/-- The state of the re-balance loop: only the red root of the subtree at the
hole may break a red-black condition, against a red parent. -/
structure Reddened (m : Mem α) (κ : α → UInt64) (s : α) (top : Ptr α) (p : CPath α)
    (t : CTree α) : Prop where
  rep : Rep m κ s top p t
  red : t.rootColor = .red
  balanced : ∃ n, p.Balanced n ∧ t.Balanced n

/-- After the inner rotation, if any, the red child is the outer one. -/
theorem insertStraighten_spec {d₁ : Side} {P : α} {S : CTree α} {f : Frame α}
    (h : Rep m κ s top (⟨d₁, .red, P, S⟩ :: f :: q) t) (hred : t.rootColor = .red)
    (ht : t.Balanced n) (hS : S.Balanced n) (hSb : S.rootColor = .black) :
    wp (insertStraighten d (ptr s t)) (fun v m' => ∃ P' S' t',
      v = ptr s t' ∧ Rep m' κ s top (⟨d, .red, P', S'⟩ :: f :: q) t' ∧
        t'.rootColor = .red ∧ t'.Balanced n ∧ S'.Balanced n ∧ S'.rootColor = .black ∧
        (CTree.join d .red t' P' S').inorder = (CTree.join d₁ .red t P S).inorder ∧
        SameOff (fill (⟨d₁, .red, P, S⟩ :: f :: q) t).inorder m m') m := by
  obtain ⟨a, x, b, rfl⟩ := CTree.exists_join_red d hred
  have hx := h.node_eq
  have hP := h.top_eq
  have hfresh := h.nodup
  simp only [List.nodup_cons, List.mem_append, CPath.vals_cons, List.mem_cons,
    List.nodup_append, CTree.mem_inorder_join, List.cons_append] at hfresh
  unfold insertStraighten
  rw [ptr_join]
  refine (wp_bind ..).mpr ((wp_load hx (parent_cell ..)).mpr ?_)
  by_cases hd : d₁ = d
  · -- `x` is the outer child already
    subst hd
    refine (wp_bind ..).mpr ((wp_load hP (link_other_cell ..)).mpr ?_)
    rw [if_neg (ref_ne_ptr (by grind) (by grind))]
    exact (wp_pure ..).mpr
      ⟨P, S, _, (ptr_join ..).symm, h, hred, ht, hS, hSb, rfl, SameOff.refl _ _⟩
  · obtain rfl := Side.eq_other_of_ne hd
    refine (wp_bind ..).mpr ((wp_load hP (link_cell ..)).mpr ?_)
    rw [if_pos (ptr_join ..).symm]
    refine (wp_bind ..).mpr ((wp_load hx (parent_cell ..)).mpr ?_)
    have hrot : Rep m κ s top (f :: q) (.join d .red S P (.join d .red a x b)) := by
      rw [← CTree.join_other]
      exact Rep.up.mp h
    refine (wp_bind ..).mpr (wp_mono (rotate_spec hrot) ?_)
    rintro _ m' ⟨hrep, ho⟩
    obtain ⟨ha, hb, han, hbn⟩ := CTree.balanced_join_red.mp ht
    refine (wp_pure ..).mpr ⟨x, b, .join d .red S P a, (ptr_join ..).symm, Rep.up.mpr hrep,
      CTree.rootColor_join .., CTree.balanced_join_red.mpr ⟨hSb, ha, hS, han⟩, hbn, hb, ?_, ?_⟩
    · rw [CTree.join_other]
      exact (CTree.inorder_rotate ..).symm
    · refine ho.mono fun v hv => ?_
      rw [fill_cons, mem_fill_iff, Frame.plug, CTree.join_other]
      exact List.mem_append.mp hv

/-- The colour flip of a red uncle: the red moves to the grandparent. -/
theorem insertStep_recolor {d₁ : Side} {P G : α} {S U : CTree α}
    (h : Reddened m κ s top (⟨d₁, .red, P, S⟩ :: ⟨d, .black, G, U⟩ :: q) t)
    (hU : U.rootColor = .red) :
    wp (insertStep d (ptr s t)) (fun v m' => ∃ t',
      v = ptr s t' ∧ Reddened m' κ s top q t' ∧
        t'.inorder = (CTree.join d .black (CTree.join d₁ .red t P S) G U).inorder ∧
        SameOff (fill (⟨d₁, .red, P, S⟩ :: ⟨d, .black, G, U⟩ :: q) t).inorder m m') m := by
  obtain ⟨h, hred, n, ⟨hSn, hSb, -, hUn, hq⟩, ht⟩ := h
  have hne := CTree.ne_nil_of_red hred
  unfold insertStep
  refine (wp_bind ..).mpr ((wp_of_run (h.parent_run hne)).mpr ?_)
  refine (wp_bind ..).mpr ((wp_of_run h.top_parent_run).mpr ?_)
  refine (wp_bind ..).mpr ((wp_of_run (Rep.up.mp h).top_sibling_run).mpr ?_)
  refine (wp_bind ..).mpr ((wp_of_run (rbtreeIsRed_run (Rep.up.mp h).sibling_color_run)).mpr ?_)
  rw [if_pos (by simp [hU])]
  -- black parent
  refine (wp_bind ..).mpr ((wp_of_run (h.parent_run hne)).mpr ?_)
  refine (wp_bind ..).mpr (wp_mono (setColor_top_spec h .black) ?_)
  rintro _ m₁ ⟨h₁, ho₁⟩
  -- black uncle
  refine (wp_bind ..).mpr (wp_mono (rbtreeBlack_spec (Rep.swap.mp (Rep.up.mp h₁))) ?_)
  rintro _ m₂ ⟨h₂, ho₂⟩
  have h₂' := Rep.up.mpr (Rep.swap.mpr h₂)
  -- red grandparent
  refine (wp_bind ..).mpr ((wp_of_run (h₂'.parent_run hne)).mpr ?_)
  refine (wp_bind ..).mpr ((wp_of_run h₂'.top_parent_run).mpr ?_)
  refine (wp_bind ..).mpr (wp_mono (setColor_top_top_spec h₂' .red) ?_)
  rintro _ m₃ ⟨h₃, ho₃⟩
  refine (wp_bind ..).mpr ((wp_of_run (h₃.parent_run hne)).mpr ?_)
  refine (wp_of_run h₃.top_parent_run).mpr ?_
  refine ⟨.join d .red (.join d₁ .black t P S) G U.blacken, (ptr_join ..).symm,
    ⟨Rep.up.mp (Rep.up.mp h₃), CTree.rootColor_join .., n + 1, hq, ?_⟩, ?_, ?_⟩
  · exact CTree.balanced_join_red.mpr ⟨CTree.rootColor_join .., CTree.rootColor_blacken U,
      CTree.balanced_black ht hSn, hUn.blacken hU⟩
  · exact CTree.inorder_join_congr (CTree.inorder_join_color ..) (CTree.inorder_blacken U)
  · refine (ho₁.mono ?_).trans ((ho₂.mono ?_).trans (ho₃.mono ?_)) <;> intro y hy <;>
      simp only [mem_fill_iff, CPath.vals_cons] <;> simp at hy <;> simp [hy]

/-- The rotations of a black uncle: the reddened subtree keeps its place below a
parent that is black now. -/
theorem insertStep_rotate {d₁ : Side} {P G : α} {S U : CTree α}
    (h : Reddened m κ s top (⟨d₁, .red, P, S⟩ :: ⟨d, .black, G, U⟩ :: q) t)
    (hU : U.rootColor = .black) :
    wp (insertStep d (ptr s t)) (fun v m' => ∃ f t',
      v = ptr s t' ∧ Reddened m' κ s top (f :: q) t' ∧
        (f.plug t').inorder = (CTree.join d .black (CTree.join d₁ .red t P S) G U).inorder ∧
        SameOff (fill (⟨d₁, .red, P, S⟩ :: ⟨d, .black, G, U⟩ :: q) t).inorder m m') m := by
  obtain ⟨h, hred, n, ⟨hSn, hSb, -, hUn, hq⟩, ht⟩ := h
  have hne := CTree.ne_nil_of_red hred
  unfold insertStep
  refine (wp_bind ..).mpr ((wp_of_run (h.parent_run hne)).mpr ?_)
  refine (wp_bind ..).mpr ((wp_of_run h.top_parent_run).mpr ?_)
  refine (wp_bind ..).mpr ((wp_of_run (Rep.up.mp h).top_sibling_run).mpr ?_)
  refine (wp_bind ..).mpr ((wp_of_run (rbtreeIsRed_run (Rep.up.mp h).sibling_color_run)).mpr ?_)
  rw [if_neg (by simp [hU])]
  refine (wp_bind ..).mpr (wp_mono (insertStraighten_spec h hred ht hSn hSb) ?_)
  rintro _ m₁ ⟨P', S', t', rfl, h₁, hred', ht', hS', hSb', hi, ho₁⟩
  have hne' := CTree.ne_nil_of_red hred'
  -- black parent, red grandparent
  refine (wp_bind ..).mpr ((wp_of_run (h₁.parent_run hne')).mpr ?_)
  refine (wp_bind ..).mpr (wp_mono (setColor_top_spec h₁ .black) ?_)
  rintro _ m₂ ⟨h₂, ho₂⟩
  refine (wp_bind ..).mpr ((wp_of_run (h₂.parent_run hne')).mpr ?_)
  refine (wp_bind ..).mpr ((wp_of_run h₂.top_parent_run).mpr ?_)
  refine (wp_bind ..).mpr (wp_mono (setColor_top_top_spec h₂ .red) ?_)
  rintro _ m₃ ⟨h₃, ho₃⟩
  refine (wp_bind ..).mpr ((wp_of_run (h₃.parent_run hne')).mpr ?_)
  refine (wp_bind ..).mpr ((wp_of_run h₃.top_parent_run).mpr ?_)
  -- the outer rotation at the grandparent
  have hrot : Rep m₃ κ s top q
      (.join d.other .red U G (.join d.other .black S' P' t')) := by
    rw [CTree.join_other, CTree.join_other]
    exact Rep.up.mp (Rep.up.mp h₃)
  refine (wp_bind ..).mpr (wp_mono (rotate_spec hrot) ?_)
  rintro _ m₄ ⟨h₄, ho₄⟩
  rw [CTree.join_other, CTree.join_other] at h₄
  refine (wp_pure ..).mpr ⟨⟨d, .black, P', .join d .red S' G U⟩, t', rfl,
    ⟨Rep.up.mpr h₄, hred', n, ⟨?_, hq⟩, ht'⟩, ?_, ?_⟩
  · exact CTree.balanced_join_red.mpr ⟨hSb', hU, hS', hUn⟩
  · have hr := CTree.inorder_rotate d.other .black .red .black .red U G S' P' t'
    simp only [CTree.join_other] at hr
    exact hr.symm.trans (CTree.inorder_join_congr ((CTree.inorder_join_color ..).trans hi) rfl)
  · -- every node touched is one of the old tree's
    have hmem : ∀ y, y ∈ (CTree.join d .red t' P' S').inorder ∨ y = G ∨ y ∈ U.inorder ∨
        y ∈ q.vals → y ∈ (fill (⟨d₁, .red, P, S⟩ :: ⟨d, .black, G, U⟩ :: q) t).inorder := by
      intro y hy
      rw [hi] at hy
      simp only [mem_fill_iff, CPath.vals_cons, CTree.mem_inorder_join, List.cons_append,
        List.mem_cons, List.mem_append] at hy ⊢
      tauto
    refine ho₁.trans ((ho₂.mono ?_).trans ((ho₃.mono ?_).trans (ho₄.mono ?_))) <;> intro y hy <;>
      refine hmem y ?_ <;>
      simp only [List.mem_append, List.mem_singleton, CTree.mem_inorder_join] at hy ⊢ <;> tauto

/-- The re-balance loop ends with a tree that is red-black once its root is made
black. -/
theorem insertRebalance_spec (h : Reddened m κ s top p t) (hf : p.length < fuel) :
    wp (insertRebalance fuel (ptr s t)) (fun _ m' => ∃ t',
      Rep m' κ s top [] t' ∧ t'.blacken.RedBlack ∧ t'.inorder = (fill p t).inorder ∧
        SameOff (fill p t).inorder m m') m := by
  induction fuel generalizing m p t with
  | zero => omega
  | succ fuel ih =>
  obtain ⟨hrep, hred, n, hp, ht⟩ := h
  have hne := CTree.ne_nil_of_red hred
  have hdone : (t.rootColor = .red → p.topColor = .black) →
      ∃ t', Rep m κ s top [] t' ∧ t'.blacken.RedBlack ∧ t'.inorder = (fill p t).inorder ∧
        SameOff (fill p t).inorder m m := fun htop => by
    have hrb := (redBlack_fill p t).mpr ⟨n, hp, ht, htop⟩
    exact ⟨fill p t, Rep.fill_iff.mp hrep, by rwa [CTree.blacken_of_black hrb.1], rfl,
      SameOff.refl _ _⟩
  unfold insertRebalance
  refine (wp_bind ..).mpr ((wp_of_run hrep.root_run).mpr ?_)
  cases p with
  | nil =>
      rw [if_neg (by simp)]
      exact (wp_pure ..).mpr ⟨t, hrep, ht.redBlack_blacken, rfl, SameOff.refl _ _⟩
  | cons f₁ p =>
      rw [if_pos hrep.ptr_ne_root]
      refine (wp_bind ..).mpr ((wp_of_run (hrep.parent_run hne)).mpr ?_)
      refine (wp_bind ..).mpr ((wp_of_run (rbtreeIsRed_run hrep.top_color_run)).mpr ?_)
      obtain ⟨d₁, c₁, P, S⟩ := f₁
      cases c₁ with
      | black =>
          rw [if_neg (by simp)]
          exact (wp_pure ..).mpr (hdone fun _ => rfl)
      | red =>
          rw [if_pos (by simp)]
          -- a red parent is not the root, so there is a black grandparent
          cases p with
          | nil => exact absurd hp.2.2.1 (by simp [CPath.topColor])
          | cons f₂ q =>
              obtain ⟨d, c₂, G, U⟩ := f₂
              obtain rfl : c₂ = .black := hp.2.2.1
              refine (wp_bind ..).mpr ((wp_of_run (hrep.parent_run hne)).mpr ?_)
              refine (wp_bind ..).mpr ((wp_of_run (hrep.parent_run hne)).mpr ?_)
              refine (wp_bind ..).mpr ((wp_of_run hrep.top_parent_run).mpr ?_)
              -- one iteration and the loop from there
              have hstep : wp (insertStep d (ptr s t) >>= insertRebalance fuel) (fun _ m' => ∃ t',
                  Rep m' κ s top [] t' ∧ t'.blacken.RedBlack ∧
                    t'.inorder = (fill (⟨d₁, .red, P, S⟩ :: ⟨d, .black, G, U⟩ :: q) t).inorder ∧
                    SameOff (fill (⟨d₁, .red, P, S⟩ :: ⟨d, .black, G, U⟩ :: q) t).inorder m m')
                  m := by
                have hR : Reddened m κ s top (⟨d₁, .red, P, S⟩ :: ⟨d, .black, G, U⟩ :: q) t :=
                  ⟨hrep, hred, n, hp, ht⟩
                simp only [List.length_cons] at hf
                cases hU : U.rootColor with
                | red =>
                    refine (wp_bind ..).mpr (wp_mono (insertStep_recolor hR hU) ?_)
                    rintro _ m₁ ⟨t₁, rfl, h₁, hi, ho⟩
                    refine wp_mono (ih h₁ (by omega)) ?_
                    rintro _ m₂ ⟨t₂, h₂, hrb, hi₂, ho₂⟩
                    have hfill := inorder_fill_congr (p := q) hi
                    exact ⟨t₂, h₂, hrb, hi₂.trans hfill, ho.trans (hfill ▸ ho₂)⟩
                | black =>
                    refine (wp_bind ..).mpr (wp_mono (insertStep_rotate hR hU) ?_)
                    rintro _ m₁ ⟨f, t₁, rfl, h₁, hi, ho⟩
                    refine wp_mono (ih h₁ (by rw [List.length_cons]; omega)) ?_
                    rintro _ m₂ ⟨t₂, h₂, hrb, hi₂, ho₂⟩
                    have hfill : (fill (f :: q) t₁).inorder = _ := inorder_fill_congr (p := q) hi
                    exact ⟨t₂, h₂, hrb, hi₂.trans hfill, ho.trans (hfill ▸ ho₂)⟩
              have hup := Rep.up.mp hrep
              cases d with
              | left =>
                  refine (wp_bind ..).mpr ((wp_of_run hup.top_child_run).mpr ?_)
                  rw [if_pos (by simp)]
                  exact hstep
              | right =>
                  refine (wp_bind ..).mpr ((wp_of_run hup.top_sibling_run).mpr ?_)
                  have hneq := hup.ptr_ne_sibling
                    (Or.inl (by cases d₁ <;> simp [Frame.plug, CTree.join]))
                  rw [ptr_plug] at hneq
                  rw [if_neg hneq]
                  exact hstep

/-- `rbtree_insert` into the empty tree. -/
theorem rbtreeInsert_empty {nd : RbtreeNode α} (h : Rep m κ s top [] .nil)
    (hx : m.node x = some nd) (hk : nd.key = some (κ x)) (hxs : x ≠ s) :
    wp (rbtreeInsert fuel (.ref x)) (fun _ m' =>
      Rep m' κ s .null [] (.node .black .nil x .nil) ∧ SameOff [x] m m') m := by
  obtain ⟨hs, hr, hn, ⟨sn, hsn, hsc⟩, -, -⟩ := h
  unfold rbtreeInsert
  refine (wp_bind ..).mpr ((wp_of_run rfl).mpr ?_)
  refine (wp_bind ..).mpr ((wp_of_run rfl).mpr ?_)
  rw [if_pos (by rw [hr, hs]; rfl)]
  refine (wp_bind ..).mpr ((wp_store hx).mpr ?_)
  refine (wp_bind ..).mpr ((wp_of_run rfl).mpr ?_)
  refine (wp_bind ..).mpr ((wp_store (Mem.set_same ..)).mpr ?_)
  refine (wp_bind ..).mpr ((wp_of_run rfl).mpr ?_)
  refine (wp_bind ..).mpr ((wp_store (Mem.set_same ..)).mpr ?_)
  refine (wp_bind ..).mpr ((wp_store (Mem.set_same ..)).mpr ?_)
  simp only [Mem.set_tree, hs]
  refine ⟨(), _, rfl, ⟨hs, rfl, by simpa using Ne.symm hxs, ⟨sn, ?_, hsc⟩, trivial,
    ⟨?_, trivial, trivial⟩⟩, ?_⟩
  · simp only [Mem.set_other _ _ hxs.symm, hsn]
  · show Mem.node (Mem.set _ x _) x = _
    rw [Mem.set_same]
    obtain ⟨l, r, par, k, cl⟩ := nd
    obtain rfl : k = some (κ x) := hk
    rfl
  · intro y hy
    have hyx : y ≠ x := by simpa using hy
    simp only [Mem.set_other _ _ hyx]

/-- `rbtree_insert` of a node outside a red-black tree. -/
theorem rbtreeInsert_spec {nd : RbtreeNode α} (h : Rep m κ s top [] t) (hrb : t.RedBlack)
    (hsorted : t.inorder.Pairwise fun y z => κ y ≤ κ z) (hx : m.node x = some nd)
    (hk : nd.key = some (κ x)) (hxs : x ≠ s) (hxt : x ∉ t.inorder)
    (hf : t.inorder.length < fuel) :
    wp (rbtreeInsert fuel (.ref x)) (fun _ m' => ∃ t',
      Rep m' κ s (if t = .nil then .null else top) [] t' ∧ t'.RedBlack ∧
        t'.inorder = t.inorder.filter (fun y => !decide (κ x < κ y)) ++
          x :: t.inorder.filter (fun y => decide (κ x < κ y)) ∧
        SameOff (x :: t.inorder) m m') m := by
  by_cases ht : t = .nil
  · subst ht
    refine wp_mono (rbtreeInsert_empty h hx hk hxs) ?_
    rintro _ m' ⟨hrep, ho⟩
    exact ⟨_, by rwa [if_pos rfl], ⟨rfl, 1, by simp [CTree.Balanced]⟩, rfl, ho⟩
  have hdesc := insertDescend_run hx hk h ht hf
  obtain ⟨f, q, hslot, hrun⟩ := hdesc
  have hfill : fill (f :: q) .nil = t := by
    rw [← hslot, fill_slot]
    rfl
  have hrep : Rep m κ s top (f :: q) .nil := by
    rw [Rep.fill_iff, hfill]
    exact h
  have hvals : ∀ {y}, y ∈ t.inorder ↔ y ∈ CPath.vals (f :: q) := fun {y} => by
    rw [← hfill, mem_fill_iff]
    simp
  -- the slot splits the old values at the new key
  obtain ⟨hbefore, hafter⟩ := slot_sorted (fun y => decide (κ x < κ y)) (t := t) []
    (hsorted.imp fun {y z} hle hlt => by
      simp only [decide_eq_true_eq] at hlt ⊢
      exact UInt64.lt_of_lt_of_le hlt hle)
  rw [hslot] at hbefore hafter
  have hpath := (redBlack_fill (f :: q) .nil).mp (hfill ▸ hrb)
  obtain ⟨n, hp, hn, -⟩ := hpath
  obtain rfl : n = 0 := hn
  unfold rbtreeInsert
  refine (wp_bind ..).mpr ((wp_of_run h.root_run).mpr ?_)
  refine (wp_bind ..).mpr ((wp_of_run h.sentinel_run).mpr ?_)
  have hfresh : s ∉ t.inorder := h.sentinel_notMem
  rw [if_neg (by rw [fill_nil, ptr_eq_sentinel hfresh]; exact ht)]
  refine (wp_bind ..).mpr ((wp_of_run h.root_run).mpr ?_)
  refine (wp_bind ..).mpr ((wp_of_run hrun).mpr ?_)
  refine (wp_bind ..).mpr (wp_mono
    (insertAttach_spec hx hk hrep hxs fun hv => hxt (hvals.mpr hv)) ?_)
  rintro _ m₁ ⟨h₁, ho₁⟩
  have hR : Reddened m₁ κ s top (f :: q) (.node .red .nil x .nil) :=
    ⟨h₁, rfl, 0, hp, rfl, rfl, rfl, rfl⟩
  have hlen : q.length + 1 < fuel := by
    have := length_path_le (f :: q) (.nil : CTree α)
    rw [hfill, List.length_cons, CTree.inorder_nil, List.length_nil] at this
    omega
  refine (wp_bind ..).mpr (wp_mono (insertRebalance_spec hR hlen) ?_)
  rintro _ m₂ ⟨t₂, h₂, hrb₂, hi₂, ho₂⟩
  refine (wp_bind ..).mpr ((wp_of_run h₂.root_run).mpr ?_)
  refine wp_mono (rbtreeBlack_spec h₂) ?_
  rintro _ m₃ ⟨h₃, ho₃⟩
  have hi : t₂.inorder = t.inorder.filter (fun y => !decide (κ x < κ y)) ++
      x :: t.inorder.filter (fun y => decide (κ x < κ y)) := by
    rw [hi₂, inorder_fill, hbefore, hafter]
    simp [CPath.before, CPath.after]
  refine ⟨t₂.blacken, by rwa [if_neg ht], hrb₂, by rw [CTree.inorder_blacken, hi], ?_⟩
  have hsub : ∀ y ∈ t₂.inorder, y ∈ x :: t.inorder := by
    intro y hy
    rw [hi] at hy
    simp only [List.mem_append, List.mem_cons, List.mem_filter] at hy ⊢
    tauto
  refine (ho₁.mono ?_).trans ((ho₂.mono ?_).trans (ho₃.mono hsub))
  · intro y hy
    rcases List.mem_cons.mp hy with rfl | hy
    · simp
    · simp [hvals.mpr hy]
  · rw [← hi₂]
    exact hsub

end

end Bitzer
