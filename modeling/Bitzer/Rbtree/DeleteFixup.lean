import Bitzer.Rbtree.Rotate

/-!
# The delete fix-up loop

After a black node was spliced out, the subtree at the hole is one black node
short (`Deficient`). When it is empty, the only way up is the parent link the
splice left in the sentinel (`Scratch`); no step of the loop disturbs it.

A red sibling moves the hole one level down before the loop can move it up, so
the measure counts a black subtree at the hole besides the length of the path.

What is proved of the loop is proved of the loop with an assertion after each
assignment of the sibling `w`: it is not the sentinel. Where that one returns,
the loop of the source does the same.
-/

namespace Bitzer

open Lib

variable {α : Type}

/-- The sentinel's parent link while it stands for an empty subtree. -/
def Scratch (m : Mem α) (s : α) (t : CTree α) (q : Ptr α) : Prop :=
  t = .nil → ∃ n, m.node s = some n ∧ n.parent = some q

/-- The subtree at the hole is one black node short, or red and repaired by
making it black. -/
structure Deficient (m : Mem α) (κ : α → UInt64) (s : α) (top : Ptr α) (p : CPath α)
    (t : CTree α) : Prop where
  rep : Rep m κ s top p t
  scratch : p ≠ [] → Scratch m s t (parOf top p)
  balanced : ∃ n, p.Balanced (n + 1) ∧ (t.rootColor = .black → t.Balanced n) ∧
    (t.rootColor = .red → t.blacken.Balanced (n + 1))

/-- The number of iterations that may remain. -/
def deficit (p : CPath α) (t : CTree α) : Nat :=
  2 * p.length + if t.rootColor = .black then 1 else 0

section
variable {m m' : Mem α} {κ : α → UInt64} {s : α} {top par : Ptr α} {p q : CPath α}
  {t : CTree α} {d : Side} {c : Color} {x y : α} {n : Nat} {fuel : Nat}

theorem Scratch.congr {q : Ptr α} (h : Scratch m s t q) (hm : m'.node s = m.node s) :
    Scratch m' s t q := fun ht => by
  rw [hm]
  exact h ht

/-- The way up from the hole, through the sentinel if need be. -/
theorem parent_run {f : Frame α} (h : Rep m κ s top (f :: p) t)
    (hs : Scratch m s t (.ref f.val)) : (parent (ptr s t)).run m = some (.ref f.val, m) := by
  by_cases ht : t = .nil
  · obtain ⟨n, hn, hp⟩ := hs ht
    subst ht
    exact load_run hn hp
  · exact h.parent_run ht

theorem bothBlack_run {l r : CTree α} (h : Rep m κ s top p (.node c l x r)) :
    (bothBlack (.ref x)).run m =
      some (decide (l.rootColor = .black) && decide (r.rootColor = .black), m) := by
  have hl : Rep m κ s top (⟨.left, c, x, r⟩ :: p) l := Rep.up.mpr h
  have hr := Rep.swap.mp hl
  have hlc := rbtreeIsBlack_run hl.color_run
  have hrc := rbtreeIsBlack_run hr.color_run
  have hcl : (child .left (.ref x)).run m = some (ptr s l, m) := hl.top_child_run
  have hcr : (child .right (.ref x)).run m = some (ptr s r, m) := hl.top_sibling_run
  cases hL : l.rootColor <;> cases hR : r.rootColor <;>
    simp [bothBlack, hcl, hcr, hlc, hrc, hL, hR]

/-- A red-black tree needs no fix-up at its root. -/
theorem Deficient.of_redBlack (h : Rep m κ s top [] t) (hrb : t.RedBlack) :
    Deficient m κ s top [] t := by
  obtain ⟨hc, n, hn⟩ := hrb
  exact ⟨h, fun hne => absurd rfl hne, n, trivial, fun _ => hn, fun hr => by simp [hc] at hr⟩

variable [DecidableEq α]

/-! ## The loop with assertions -/

/-- `assert(w != s)`. -/
def assertNot (s : α) (w : Ptr α) : Prog (Mem α) Unit :=
  if w = .ref s then fun _ => none else pure ()

/-- `deleteRotate` with the assertion. -/
def deleteRotateAsserting (s : α) (d : Side) (temp w : Ptr α) : Prog (Mem α) (Ptr α) := do
  let w ← deleteStraighten d temp w
  assertNot s w
  rbtreeCopyColor w (← parent temp)
  rbtreeBlack (← parent temp)
  rbtreeBlack (← child d.other w)
  rbtreeRotate d (← parent temp)
  root

/-- `deleteStep` with the assertions. -/
def deleteStepAsserting (s : α) (d : Side) (temp : Ptr α) : Prog (Mem α) (Ptr α) := do
  let w ← child d.other (← parent temp)
  assertNot s w
  let w ← deleteRedSibling d temp w
  assertNot s w
  if ← bothBlack w then
    rbtreeRed w
    parent temp
  else
    deleteRotateAsserting s d temp w

/-- `deleteFixup` with the assertions. -/
def deleteFixupAsserting (s : α) : Nat → Ptr α → Prog (Mem α) Unit
  | 0, _ => fun _ => none
  | fuel + 1, temp => do
      if temp ≠ (← root) then
        if ← rbtreeIsBlack temp then
          if temp = (← child .left (← parent temp)) then
            deleteFixupAsserting s fuel (← deleteStepAsserting s .left temp)
          else
            deleteFixupAsserting s fuel (← deleteStepAsserting s .right temp)
        else
          rbtreeBlack temp
      else
        rbtreeBlack temp

theorem wp_assertNot {w : Ptr α} {Q : Unit → Mem α → Prop} (hw : w ≠ .ref s) :
    wp (assertNot s w) Q m ↔ Q () m := by
  rw [assertNot, if_neg hw]
  exact wp_pure ..

theorem assertNot_sim {β : Type} {P P' : Prog (Mem α) β} {w : Ptr α} (h : Sim Eq P P') :
    Sim Eq (assertNot s w >>= fun _ => P) P' := by
  unfold assertNot
  split
  · intro m _ _ v m' hr
    cases hr
  · exact h

theorem deleteRotateAsserting_sim (s : α) (d : Side) (temp w : Ptr α) :
    Sim Eq (deleteRotateAsserting s d temp w) (deleteRotate d temp w) :=
  (Sim.refl _).bind fun _ => assertNot_sim (.refl _)

theorem deleteStepAsserting_sim (s : α) (d : Side) (temp : Ptr α) :
    Sim Eq (deleteStepAsserting s d temp) (deleteStep d temp) :=
  (Sim.refl _).bind fun _ => (Sim.refl _).bind fun _ => assertNot_sim <|
    (Sim.refl _).bind fun w => assertNot_sim <| (Sim.refl _).bind fun _ =>
      .ite (.refl _) (deleteRotateAsserting_sim s d temp w)

theorem deleteFixupAsserting_sim (s : α) (fuel : Nat) (temp : Ptr α) :
    Sim Eq (deleteFixupAsserting s fuel temp) (deleteFixup fuel temp) := by
  induction fuel generalizing temp with
  | zero => exact .fault _
  | succ fuel ih =>
      exact (Sim.refl _).bind fun _ => .ite
        ((Sim.refl _).bind fun _ => .ite
          ((Sim.refl _).bind fun _ => (Sim.refl _).bind fun _ => .ite
            ((deleteStepAsserting_sim s .left temp).bind ih)
            ((deleteStepAsserting_sim s .right temp).bind ih))
          (.refl _))
        (.refl _)

/-! ## The cases of the loop -/

/-- A red sibling is rotated up; the hole is then below a red node and its new
sibling is black. -/
theorem deleteRedSibling_spec {W : CTree α} (h : Rep m κ s top (⟨d, c, x, W⟩ :: q) t)
    (hscr : Scratch m s t (.ref x)) (hp : CPath.Balanced (⟨d, c, x, W⟩ :: q) (n + 1)) :
    wp (deleteRedSibling d (ptr s t) (ptr s W)) (fun v m' => ∃ c' W' q',
      v = ptr s W' ∧ Rep m' κ s top (⟨d, c', x, W'⟩ :: q') t ∧ Scratch m' s t (.ref x) ∧
        CPath.Balanced (⟨d, c', x, W'⟩ :: q') (n + 1) ∧ W'.rootColor = .black ∧
        (q' = q ∧ c' = c ∨ q'.length = q.length + 1 ∧ c' = .red) ∧
        (fill (⟨d, c', x, W'⟩ :: q') t).inorder = (fill (⟨d, c, x, W⟩ :: q) t).inorder ∧
        SameOff (fill (⟨d, c, x, W⟩ :: q) t).inorder m m') m := by
  unfold deleteRedSibling
  refine (wp_bind ..).mpr ((wp_of_run (rbtreeIsRed_run h.sibling_color_run)).mpr ?_)
  cases hW : W.rootColor with
  | black =>
      rw [if_neg (by simp)]
      exact (wp_pure ..).mpr ⟨c, W, q, rfl, h, hscr, hp, hW, Or.inl ⟨rfl, rfl⟩, rfl,
        SameOff.refl _ _⟩
  | red =>
      rw [if_pos (by simp)]
      obtain ⟨a, w, b, rfl⟩ := CTree.exists_join_red d hW
      cases c with
      | red => exact absurd hp.2.1 (by simp)
      | black =>
      obtain ⟨hWn, hq⟩ := CPath.balanced_cons_black.mp hp
      obtain ⟨ha, hb, han, hbn⟩ := CTree.balanced_join_red.mp hWn
      have hs := h.sentinel_notMem
      refine (wp_bind ..).mpr (wp_mono (rbtreeBlack_spec (Rep.swap.mp h)) ?_)
      rintro _ m₁ ⟨h₁, ho₁⟩
      have h₁' := Rep.swap.mpr h₁
      rw [CTree.blacken_join] at h₁'
      have hso₁ : m₁.node s = m.node s := ho₁ s fun h => hs (by
        rw [mem_fill_iff]
        simp [h])
      have hscr₁ := hscr.congr hso₁
      refine (wp_bind ..).mpr ((wp_of_run (parent_run h₁' hscr₁)).mpr ?_)
      refine (wp_bind ..).mpr (wp_mono (setColor_top_spec h₁' .red) ?_)
      rintro _ m₂ ⟨h₂, ho₂⟩
      have hso₂ : m₂.node s = m₁.node s := ho₂ s fun h => hs (by
        rw [mem_fill_iff]
        simp_all)
      have hscr₂ := hscr₁.congr hso₂
      refine (wp_bind ..).mpr ((wp_of_run (parent_run h₂ hscr₂)).mpr ?_)
      have hrot : Rep m₂ κ s top q (.join d .red t x (.join d .black a w b)) := Rep.up.mp h₂
      refine (wp_bind ..).mpr (wp_mono (rotate_spec hrot) ?_)
      rintro _ m₃ ⟨h₃, ho₃⟩
      have h₃' : Rep m₃ κ s top (⟨d, .red, x, a⟩ :: ⟨d, .black, w, b⟩ :: q) t :=
        Rep.up.mpr (Rep.up.mpr h₃)
      have hmem : ∀ y, y ∈ q.vals ++ (CTree.join d .red t x (.join d .black a w b)).inorder →
          y ∈ (fill (⟨d, .black, x, .join d .red a w b⟩ :: q) t).inorder := by
        intro y hy
        simp only [mem_fill_iff, CPath.vals_cons, List.mem_append, CTree.mem_inorder_join,
          List.cons_append, List.mem_cons] at hy ⊢
        tauto
      have hso₃ : m₃.node s = m₂.node s := ho₃ s fun h => hs (hmem s h)
      have hscr₃ := hscr₂.congr hso₃
      refine (wp_bind ..).mpr ((wp_of_run (parent_run h₃' hscr₃)).mpr ?_)
      refine (wp_of_run h₃'.top_sibling_run).mpr ?_
      refine ⟨.red, a, ⟨d, .black, w, b⟩ :: q, rfl, h₃', hscr₃, ?_, ha, Or.inr ⟨rfl, rfl⟩, ?_, ?_⟩
      · exact ⟨han, ha, rfl, hbn, hq⟩
      · exact (inorder_fill_congr (CTree.inorder_rotate ..)).symm
      · refine (ho₁.mono fun y hy => ?_).trans ((ho₂.mono fun y hy => ?_).trans (ho₃.mono hmem))
        · simp [CTree.mem_inorder_join.mp hy]
        · simp [List.mem_singleton.mp hy]

/-- The inner rotation, if the outer child of the sibling is black: its outer
child is red then. -/
theorem deleteStraighten_spec {a b : CTree α} {w : α}
    (h : Rep m κ s top (⟨d, c, x, .join d .black a w b⟩ :: q) t)
    (hscr : Scratch m s t (.ref x)) (ha : a.Balanced n) (hb : b.Balanced n)
    (hred : ¬(a.rootColor = .black ∧ b.rootColor = .black)) :
    wp (deleteStraighten d (ptr s t) (.ref w)) (fun v m' => ∃ cw a' w' b',
      v = .ref w' ∧ Rep m' κ s top (⟨d, c, x, .join d cw a' w' b'⟩ :: q) t ∧
        Scratch m' s t (.ref x) ∧ a'.Balanced n ∧ b'.blacken.Balanced (n + 1) ∧
        (CTree.join d cw a' w' b').inorder = (CTree.join d .black a w b).inorder ∧
        SameOff (fill (⟨d, c, x, .join d .black a w b⟩ :: q) t).inorder m m') m := by
  have hW := Rep.swap.mp h
  have hs := h.sentinel_notMem
  -- the holes at the two children of the sibling
  have hA : Rep m κ s top (⟨d, .black, w, b⟩ :: ⟨d.other, c, x, t⟩ :: q) a := Rep.up.mpr hW
  unfold deleteStraighten
  refine (wp_bind ..).mpr ((wp_of_run hW.other_child_run).mpr ?_)
  refine (wp_bind ..).mpr ((wp_of_run (rbtreeIsBlack_run hA.sibling_color_run)).mpr ?_)
  cases hbc : b.rootColor with
  | red =>
      rw [if_neg (by simp)]
      exact (wp_pure ..).mpr ⟨.black, a, w, b, rfl, h, hscr, ha, hb.blacken hbc, rfl,
        SameOff.refl _ _⟩
  | black =>
      rw [if_pos (by simp)]
      have hac : a.rootColor = .red := by
        cases hac : a.rootColor with
        | red => rfl
        | black => exact absurd ⟨hac, hbc⟩ hred
      obtain ⟨a₁, y, b₁, rfl⟩ := CTree.exists_join_red d.other hac
      obtain ⟨ha₁, hb₁, ha₁n, hb₁n⟩ := CTree.balanced_join_red.mp ha
      refine (wp_bind ..).mpr ((wp_of_run hA.top_child_run).mpr ?_)
      refine (wp_bind ..).mpr (wp_mono (rbtreeBlack_spec hA) ?_)
      rintro _ m₁ ⟨h₁, ho₁⟩
      rw [CTree.blacken_join] at h₁
      refine (wp_bind ..).mpr (wp_mono (setColor_top_spec h₁ .red) ?_)
      rintro _ m₂ ⟨h₂, ho₂⟩
      have hrot : Rep m₂ κ s top (⟨d.other, c, x, t⟩ :: q)
          (.join d.other .red b w (.join d.other .black a₁ y b₁)) := by
        rw [CTree.join_other]
        exact Rep.up.mp h₂
      refine (wp_bind ..).mpr (wp_mono (rotate_spec hrot) ?_)
      rintro _ m₃ ⟨h₃, ho₃⟩
      rw [CTree.join_other] at h₃
      have h₃' : Rep m₃ κ s top
          (⟨d, c, x, .join d .black b₁ y (.join d.other .red b w a₁)⟩ :: q) t :=
        Rep.swap.mpr h₃
      have hmem₂ : ∀ v ∈ [w], v ∈ (fill (⟨d, c, x, .join d .black (.join d.other .red a₁ y b₁) w b⟩
          :: q) t).inorder := by
        intro v hv
        simp [List.mem_singleton.mp hv]
      have hmem₁ : ∀ v ∈ (CTree.join d.other .red a₁ y b₁).inorder,
          v ∈ (fill (⟨d, c, x, .join d .black (.join d.other .red a₁ y b₁) w b⟩
            :: q) t).inorder := by
        intro v hv
        simp only [fill_cons, mem_fill_iff, Frame.mem_inorder_plug, CTree.mem_inorder_join] at hv ⊢
        tauto
      have hmem₃ : ∀ v ∈ CPath.vals (⟨d.other, c, x, t⟩ :: q) ++
          (CTree.join d.other .red b w (.join d.other .black a₁ y b₁)).inorder,
          v ∈ (fill (⟨d, c, x, .join d .black (.join d.other .red a₁ y b₁) w b⟩
            :: q) t).inorder := by
        intro v hv
        simp only [mem_fill_iff, CPath.vals_cons, List.mem_append, CTree.mem_inorder_join,
          List.cons_append, List.mem_cons] at hv ⊢
        tauto
      have ho : SameOff (fill (⟨d, c, x, .join d .black (.join d.other .red a₁ y b₁) w b⟩
          :: q) t).inorder m m₃ :=
        (ho₁.mono hmem₁).trans ((ho₂.mono hmem₂).trans (ho₃.mono hmem₃))
      have hscr₃ := hscr.congr (ho s hs)
      refine (wp_bind ..).mpr ((wp_of_run (parent_run h₃' hscr₃)).mpr ?_)
      refine (wp_of_run h₃'.top_sibling_run).mpr ?_
      refine ⟨.black, b₁, y, .join d.other .red b w a₁, ptr_join .., h₃', hscr₃, hb₁n, ?_, ?_, ho⟩
      · rw [CTree.blacken_join]
        exact CTree.balanced_black hb ha₁n
      · have hr := CTree.inorder_rotate d.other .black .red .black .red b w a₁ y b₁
        simp only [CTree.join_other] at hr ⊢
        exact hr.symm

/-- The rotations of a sibling with a red child repair the tree for good. -/
theorem deleteRotateAsserting_spec {a b : CTree α} {w : α}
    (h : Rep m κ s top (⟨d, c, x, .join d .black a w b⟩ :: q) t)
    (hscr : Scratch m s t (.ref x))
    (hp : CPath.Balanced (⟨d, c, x, .join d .black a w b⟩ :: q) (n + 1))
    (ht : t.Balanced n) (hred : ¬(a.rootColor = .black ∧ b.rootColor = .black)) :
    wp (deleteRotateAsserting s d (ptr s t) (.ref w)) (fun v m' => ∃ t',
      v = ptr s t' ∧ Rep m' κ s top [] t' ∧ t'.RedBlack ∧
        t'.inorder = (fill (⟨d, c, x, .join d .black a w b⟩ :: q) t).inorder ∧
        SameOff (fill (⟨d, c, x, .join d .black a w b⟩ :: q) t).inorder m m') m := by
  have hs := h.sentinel_notMem
  obtain ⟨han, hbn⟩ := hp.sibling.of_black
  unfold deleteRotateAsserting
  refine (wp_bind ..).mpr (wp_mono (deleteStraighten_spec h hscr han hbn hred) ?_)
  rintro _ m₁ ⟨cw, a', w', b', rfl, h₁, hscr₁, ha', hb', hi₁, ho₁⟩
  have hmem : ∀ y, y ∈ q.vals ∨ y ∈ t.inorder ∨ y = x ∨ y ∈ (CTree.join d cw a' w' b').inorder →
      y ∈ (fill (⟨d, c, x, .join d .black a w b⟩ :: q) t).inorder := by
    intro y hy
    rw [hi₁] at hy
    simpa using hy
  have hw' : Ptr.ref w' ≠ .ref s := by
    have hne := (Rep.swap.mp h₁).ptr_ne_sentinel (by cases d <;> nofun)
    rwa [ptr_join] at hne
  refine (wp_bind ..).mpr ((wp_assertNot hw').mpr ?_)
  -- the sibling takes the parent's colour
  refine (wp_bind ..).mpr ((wp_of_run (parent_run h₁ hscr₁)).mpr ?_)
  refine (wp_bind ..).mpr ((wp_bind ..).mpr ((wp_of_run h₁.top_color_run).mpr ?_))
  refine wp_mono (setColor_spec (Rep.swap.mp h₁) c) ?_
  rintro _ m₂ ⟨h₂, ho₂⟩
  have h₂' := Rep.swap.mpr h₂
  have hscr₂ := hscr₁.congr (ho₂ s fun hy => hs (hmem s (by
    simp [List.mem_singleton.mp hy])))
  -- the parent turns black
  refine (wp_bind ..).mpr ((wp_of_run (parent_run h₂' hscr₂)).mpr ?_)
  refine (wp_bind ..).mpr (wp_mono (setColor_top_spec h₂' .black) ?_)
  rintro _ m₃ ⟨h₃, ho₃⟩
  have hscr₃ := hscr₂.congr (ho₃ s fun hy => hs (hmem s (by
    simp [List.mem_singleton.mp hy])))
  -- the outer child of the sibling turns black
  have h₃' : Rep m₃ κ s top (⟨d, c, w', b'⟩ :: ⟨d.other, .black, x, t⟩ :: q) a' :=
    Rep.up.mpr (Rep.swap.mp h₃)
  refine (wp_bind ..).mpr ((wp_of_run (Rep.swap.mp h₃).other_child_run).mpr ?_)
  refine (wp_bind ..).mpr (wp_mono (rbtreeBlack_spec (Rep.swap.mp h₃')) ?_)
  rintro _ m₄ ⟨h₄, ho₄⟩
  have h₄' : Rep m₄ κ s top (⟨d, .black, x, .join d c a' w' b'.blacken⟩ :: q) t :=
    Rep.swap.mpr (Rep.up.mp (Rep.swap.mpr h₄))
  have hscr₄ := hscr₃.congr (ho₄ s fun hy => hs (hmem s (by simp [hy])))
  refine (wp_bind ..).mpr ((wp_of_run (parent_run h₄' hscr₄)).mpr ?_)
  have hrot : Rep m₄ κ s top q (.join d .black t x (.join d c a' w' b'.blacken)) := Rep.up.mp h₄'
  refine (wp_bind ..).mpr (wp_mono (rotate_spec hrot) ?_)
  rintro _ m₅ ⟨h₅, ho₅⟩
  have hi : (fill q (.join d c (.join d .black t x a') w' b'.blacken)).inorder =
      (fill (⟨d, c, x, .join d .black a w b⟩ :: q) t).inorder := by
    refine inorder_fill_congr ((CTree.inorder_rotate d .black c c .black t x a' w' _).symm.trans ?_)
    refine CTree.inorder_join_congr rfl (Eq.trans ?_ hi₁)
    exact CTree.inorder_join_congr rfl (CTree.inorder_blacken b')
  refine (wp_of_run h₅.root_run).mpr ⟨_, rfl, Rep.fill_iff.mp h₅, ?_, hi, ?_⟩
  · rw [redBlack_fill]
    have htn := CTree.balanced_black (d := d) (x := x) ht ha'
    cases c with
    | black =>
        exact ⟨n + 2, hp.2, CTree.balanced_black htn hb', by simp⟩
    | red =>
        obtain ⟨-, -, htop, hq⟩ := hp
        exact ⟨n + 1, hq, CTree.balanced_join_red.mpr
          ⟨CTree.rootColor_join .., CTree.rootColor_blacken b', htn, hb'⟩, fun _ => htop⟩
  · refine ho₁.trans ((ho₂.mono ?_).trans ((ho₃.mono ?_).trans ((ho₄.mono ?_).trans
      (ho₅.mono ?_)))) <;> intro y hy <;> refine hmem y ?_
    · simp [List.mem_singleton.mp hy]
    · simp [List.mem_singleton.mp hy]
    · simp [hy]
    · simp only [List.mem_append, CTree.mem_inorder_join, CTree.inorder_blacken] at hy ⊢
      tauto

/-- One iteration of the fix-up loop. -/
theorem deleteStepAsserting_spec {f : Frame α} (h : Deficient m κ s top (f :: q) t)
    (ht : t.rootColor = .black) :
    wp (deleteStepAsserting s f.side (ptr s t)) (fun v m' => ∃ p' t',
      v = ptr s t' ∧ Deficient m' κ s top p' t' ∧ deficit p' t' < deficit (f :: q) t ∧
        (fill p' t').inorder = (fill (f :: q) t).inorder ∧
        SameOff (fill (f :: q) t).inorder m m') m := by
  obtain ⟨d, c, x, W⟩ := f
  obtain ⟨h, hscr, n, hp, htn, -⟩ := h
  have htn := htn ht
  have hscr : Scratch m s t (.ref x) := hscr (by simp)
  unfold deleteStepAsserting
  refine (wp_bind ..).mpr ((wp_of_run (parent_run h hscr)).mpr ?_)
  refine (wp_bind ..).mpr ((wp_of_run h.top_sibling_run).mpr ?_)
  have hW := (Rep.swap.mp h).ptr_ne_sentinel hp.sibling.ne_nil
  refine (wp_bind ..).mpr ((wp_assertNot hW).mpr ?_)
  refine (wp_bind ..).mpr (wp_mono (deleteRedSibling_spec h hscr hp) ?_)
  rintro _ m₁ ⟨c₁, W₁, q₁, rfl, h₁, hscr₁, hp₁, hW₁, hq₁, hi₁, ho₁⟩
  have hne := (Rep.swap.mp h₁).ptr_ne_sentinel hp₁.sibling.ne_nil
  refine (wp_bind ..).mpr ((wp_assertNot hne).mpr ?_)
  have hWn : W₁.Balanced (n + 1) := hp₁.sibling
  obtain ⟨cw, a, w, b, rfl⟩ := CTree.exists_join d hWn.ne_nil
  obtain rfl : cw = .black := by simpa using hW₁
  obtain ⟨han, hbn⟩ := hWn.of_black
  have hWrep : Rep m₁ κ s top (⟨d.other, c₁, x, t⟩ :: q₁) (.join d .black a w b) := Rep.swap.mp h₁
  have hboth : (bothBlack (.ref w)).run m₁ =
      some (decide (a.rootColor = .black) && decide (b.rootColor = .black), m₁) := by
    cases d with
    | left => exact bothBlack_run hWrep
    | right =>
        rw [Bool.and_comm]
        exact bothBlack_run hWrep
  rw [ptr_join]
  refine (wp_bind ..).mpr ((wp_of_run hboth).mpr ?_)
  by_cases hred : a.rootColor = .black ∧ b.rootColor = .black
  · -- the sibling turns red and the hole moves up
    rw [if_pos (by simp [hred])]
    refine (wp_bind ..).mpr (wp_mono (setColor_spec hWrep .red) ?_)
    rintro _ m₂ ⟨h₂, ho₂⟩
    have h₂' := Rep.swap.mpr h₂
    have hws : s ≠ w := by
      have := hWrep.nodup
      simp only [List.nodup_cons, List.mem_append, CTree.mem_inorder_join] at this
      tauto
    have hscr₂ := hscr₁.congr (ho₂ s (by simpa using hws))
    have hW' : (CTree.join d .red a w b).Balanced n :=
      CTree.balanced_join_red.mpr ⟨hred.1, hred.2, han, hbn⟩
    have hblack := CTree.balanced_black (d := d) (x := x) htn hW'
    have hi : (fill q₁ (.join d c₁ t x (.join d .red a w b))).inorder =
        (fill (⟨d, c, x, W⟩ :: q) t).inorder :=
      (inorder_fill_congr (CTree.inorder_join_congr rfl (CTree.inorder_join_color ..))).trans hi₁
    refine (wp_of_run (parent_run h₂' hscr₂)).mpr ⟨q₁, .join d c₁ t x (.join d .red a w b),
      (ptr_join ..).symm, ⟨Rep.up.mp h₂', fun _ hnil => ?_, ?_⟩, ?_, hi, ho₁.trans (ho₂.mono ?_)⟩
    · cases d <;> cases hnil
    · cases c₁ with
      | black => exact ⟨n + 1, hp₁.2, fun _ => hblack, by simp⟩
      | red =>
          refine ⟨n, hp₁.2.2.2, by simp, fun _ => ?_⟩
          rw [CTree.blacken_join]
          exact hblack
    · simp only [deficit, List.length_cons, ht, CTree.rootColor_join, if_true]
      rcases hq₁ with ⟨rfl, rfl⟩ | ⟨hlen, rfl⟩
      · split <;> omega
      · simp only [reduceCtorEq, if_false]
        omega
    · intro y hy
      rw [← hi₁]
      simp [List.mem_singleton.mp hy]
  · rw [if_neg (by simpa using hred)]
    refine wp_mono (deleteRotateAsserting_spec h₁ hscr₁ hp₁ htn hred) ?_
    rintro _ m₂ ⟨t₂, rfl, h₂, hrb, hi₂, ho₂⟩
    refine ⟨[], t₂, rfl, Deficient.of_redBlack h₂ hrb, ?_, hi₂.trans hi₁, ho₁.trans ?_⟩
    · simp only [deficit, List.length_cons, List.length_nil, ht, hrb.1]
      omega
    · rw [← hi₁]
      exact ho₂

/-- The fix-up loop ends with a red-black tree. -/
theorem deleteFixupAsserting_spec (h : Deficient m κ s top p t) (hf : deficit p t < fuel) :
    wp (deleteFixupAsserting s fuel (ptr s t)) (fun _ m' => ∃ t',
      Rep m' κ s top [] t' ∧ t'.RedBlack ∧ t'.inorder = (fill p t).inorder ∧
        SameOff (fill p t).inorder m m') m := by
  induction fuel generalizing m p t with
  | zero => omega
  | succ fuel ih =>
  -- the loop is left: the subtree at the hole turns black
  have hdone : (p = [] ∨ t.rootColor = .red) → wp (rbtreeBlack (ptr s t)) (fun _ m' => ∃ t',
      Rep m' κ s top [] t' ∧ t'.RedBlack ∧ t'.inorder = (fill p t).inorder ∧
        SameOff (fill p t).inorder m m') m := by
    intro hexit
    obtain ⟨hrep, -, n, hp, htb, htr⟩ := h
    refine wp_mono (rbtreeBlack_spec hrep) ?_
    rintro _ m' ⟨hrep', ho⟩
    refine ⟨fill p t.blacken, Rep.fill_iff.mp hrep', ?_,
      inorder_fill_congr (CTree.inorder_blacken t),
      ho.mono fun y hy => mem_fill hy⟩
    cases hc : t.rootColor with
    | red => exact (redBlack_fill ..).mpr ⟨n + 1, hp, htr hc, by simp⟩
    | black =>
        obtain rfl : p = [] := by simpa [hc] using hexit
        exact (htb hc).redBlack_blacken
  unfold deleteFixupAsserting
  refine (wp_bind ..).mpr ((wp_of_run h.rep.root_run).mpr ?_)
  cases p with
  | nil =>
      rw [if_neg (by simp)]
      exact hdone (Or.inl rfl)
  | cons f q =>
      rw [if_pos h.rep.ptr_ne_root]
      refine (wp_bind ..).mpr ((wp_of_run (rbtreeIsBlack_run h.rep.color_run)).mpr ?_)
      cases hc : t.rootColor with
      | red =>
          rw [if_neg (by simp)]
          exact hdone (Or.inr hc)
      | black =>
          rw [if_pos (by simp)]
          have hscr := h.scratch (by simp)
          refine (wp_bind ..).mpr ((wp_of_run (parent_run h.rep hscr)).mpr ?_)
          have hstep : wp (deleteStepAsserting s f.side (ptr s t) >>= deleteFixupAsserting s fuel)
              (fun _ m' => ∃ t', Rep m' κ s top [] t' ∧ t'.RedBlack ∧
                t'.inorder = (fill (f :: q) t).inorder ∧
                SameOff (fill (f :: q) t).inorder m m') m := by
            refine (wp_bind ..).mpr (wp_mono (deleteStepAsserting_spec h hc) ?_)
            rintro _ m₁ ⟨p₁, t₁, rfl, h₁, hlt, hi, ho⟩
            refine wp_mono (ih h₁ (by omega)) ?_
            rintro _ m₂ ⟨t₂, h₂, hrb, hi₂, ho₂⟩
            exact ⟨t₂, h₂, hrb, hi₂.trans hi, ho.trans (hi ▸ ho₂)⟩
          obtain ⟨d, c, x, W⟩ := f
          cases d with
          | left =>
              refine (wp_bind ..).mpr ((wp_of_run h.rep.top_child_run).mpr ?_)
              rw [if_pos rfl]
              exact hstep
          | right =>
              refine (wp_bind ..).mpr ((wp_of_run h.rep.top_sibling_run).mpr ?_)
              -- a deficient subtree has a sibling
              have hW : W ≠ .nil := by
                obtain ⟨n, hp, -, -⟩ := h.balanced
                exact hp.sibling.ne_nil
              rw [if_neg (h.rep.ptr_ne_sibling (Or.inr hW))]
              exact hstep

end

end Bitzer
