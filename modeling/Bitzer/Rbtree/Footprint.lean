import Bitzer.Rbtree.Sim

/-!
# What the tree operations read

A read of anything that is not there faults, so a call that returns in a part of
the memory has read nothing else. `Op.part` is the part that a call may use: the
linked nodes, the node that is inserted with nothing set in it, and of the
sentinel its colour alone. The sentinel's parent link can be read there only
after it was written, and its children not at all, since no link is ever unset
and at the end they still are.
-/

namespace Bitzer

open Lib

variable {α : Type}

/-- What is set in `n` is the same in `n'`. -/
structure RbtreeNode.Within (n n' : RbtreeNode α) : Prop where
  left : ∀ p, n.left = some p → n'.left = some p
  right : ∀ p, n.right = some p → n'.right = some p
  parent : ∀ p, n.parent = some p → n'.parent = some p
  key : ∀ k, n.key = some k → n'.key = some k
  color : ∀ c, n.color = some c → n'.color = some c

/-- `μ` is a part of `m`. -/
structure Mem.Within (μ m : Mem α) : Prop where
  tree : μ.tree = m.tree
  node : ∀ y n, μ.node y = some n → ∃ n', m.node y = some n' ∧ n.Within n'

theorem RbtreeNode.Within.refl (n : RbtreeNode α) : n.Within n :=
  ⟨fun _ h => h, fun _ h => h, fun _ h => h, fun _ h => h, fun _ h => h⟩

theorem sim_load {β : Type} {field : RbtreeNode α → Option β}
    (h : ∀ n n', n.Within n' → ∀ v, field n = some v → field n' = some v) (p : Ptr α) :
    Sim Mem.Within (load field p) (load field p) := by
  intro μ m hm v μ' hr
  cases p with
  | null => cases hr
  | ref a =>
      obtain ⟨w, hw, heq⟩ := Option.map_eq_some_iff.mp hr
      cases heq
      obtain ⟨n, hn, hv⟩ := Option.bind_eq_some_iff.mp hw
      obtain ⟨n', hn', hle⟩ := hm.node a n hn
      exact ⟨m, load_run hn' (h n n' hle v hv), hm⟩

section
variable [DecidableEq α]

theorem sim_store {write : RbtreeNode α → RbtreeNode α}
    (h : ∀ n n', n.Within n' → (write n).Within (write n')) (p : Ptr α) :
    Sim Mem.Within (store write p) (store write p) := by
  intro μ m hm v μ' hr
  cases p with
  | null => cases hr
  | ref a =>
      obtain ⟨n, hn, heq⟩ := Option.map_eq_some_iff.mp hr
      cases heq
      obtain ⟨n', hn', hle⟩ := hm.node a n hn
      refine ⟨m.set a (write n'), ?_, hm.tree, fun y k hk => ?_⟩
      · show (m.node a).map _ = _
        rw [hn']
        rfl
      · by_cases hy : y = a
        · subst hy
          rw [Mem.set_same] at hk ⊢
          cases hk
          exact ⟨_, rfl, h n n' hle⟩
        · rw [Mem.set_other _ _ hy] at hk ⊢
          exact hm.node y k hk

/-- The reads and writes do in a memory what they do in a part of it. -/
theorem MemSim.within : MemSim (Mem.Within (α := α)) := by
  refine ⟨?_, ?_, ?_, ?_, sim_load fun n n' h => h.parent, sim_load fun n n' h => h.key,
    sim_load fun n n' h => h.color, ?_, ?_, ?_, ?_⟩
  · intro μ m hm v μ' hr
    cases hr
    exact ⟨m, by rw [hm.tree]; rfl, hm⟩
  · intro μ m hm v μ' hr
    cases hr
    exact ⟨m, by rw [hm.tree]; rfl, hm⟩
  · intro p μ m hm v μ' hr
    cases hr
    exact ⟨_, rfl, by rw [hm.tree], hm.node⟩
  · intro d
    cases d with
    | left => exact sim_load fun n n' h => h.left
    | right => exact sim_load fun n n' h => h.right
  · intro d p q
    refine sim_store (fun n n' h => ?_) p
    cases d with
    | left => exact ⟨fun _ h => h, h.right, h.parent, h.key, h.color⟩
    | right => exact ⟨h.left, fun _ h => h, h.parent, h.key, h.color⟩
  · intro p q
    refine sim_store (fun n n' h => ?_) p
    exact ⟨h.left, h.right, fun _ e => e, h.key, h.color⟩
  · intro p k
    refine sim_store (fun n n' h => ?_) p
    exact ⟨h.left, h.right, h.parent, fun _ e => e, h.color⟩
  · intro p c
    refine sim_store (fun n n' h => ?_) p
    exact ⟨h.left, h.right, h.parent, h.key, fun _ e => e⟩

/-! ## The part that a call uses -/

/-- The nodes `xs`, and of the sentinel its colour. -/
def Mem.bare (m : Mem α) (s : α) (xs : List α) : Mem α where
  tree := m.tree
  node y :=
    if y = s then (m.node s).map fun n => { color := n.color }
    else if y ∈ xs then m.node y else none

/-- The same with another parent link in the root. -/
def Mem.withTop (m : Mem α) (q : Ptr α) : Mem α where
  tree := m.tree
  node y := if m.tree.root = .ref y then (m.node y).map (·.setParent q) else m.node y

/-- The linked nodes and the one that is inserted. -/
def Op.part (m : Mem α) (s : α) (xs : List α) : Op α → Mem α
  | .insert x _ => (m.bare s xs).set x {}
  | .delete _ => m.bare s xs

/-- The call does in its part of the memory what it does in all of it, and keeps
the sentinel's children and key unset there. It returns there whatever the root's
parent link is, so that it does not follow it. -/
def Op.StaysIn (fuel : Nat) (m : Mem α) (s : α) (xs : List α) (op : Op α) : Prop :=
  wp (op.run fuel) (fun _ m' => wp (op.run fuel) (fun _ μ =>
    μ.Within m' ∧ op.KeepsSentinel s (op.part m s xs) μ) (op.part m s xs)) m ∧
  ∀ q, wp (op.run fuel) (fun _ _ => True) ((op.part m s xs).withTop q)

section
variable {m μ : Mem α} {κ : α → UInt64} {s x : α} {xs : List α} {t : CTree α} {top : Ptr α}
  {es : List (α × UInt64)} {fuel : Nat} {op : Op α} {ops : List (Op α)}

theorem Mem.bare_sentinel {n : RbtreeNode α} (h : m.node s = some n) (xs : List α) :
    (m.bare s xs).node s = some { color := n.color } := by
  simp [Mem.bare, h]

theorem Mem.bare_node (hxs : x ≠ s) (hx : x ∈ xs) : (m.bare s xs).node x = m.node x := by
  simp [Mem.bare, hxs, hx]

theorem Mem.bare_within (m : Mem α) (s : α) (xs : List α) : (m.bare s xs).Within m := by
  refine ⟨rfl, fun y n hn => ?_⟩
  by_cases hy : y = s
  · subst hy
    obtain ⟨n', hn', rfl⟩ := Option.map_eq_some_iff.mp (by simpa [Mem.bare] using hn)
    exact ⟨n', hn', nofun, nofun, nofun, nofun, fun _ h => h⟩
  · have hmem : m.node y = some n := by
      simp only [Mem.bare, if_neg hy] at hn
      split at hn
      · exact hn
      · cases hn
    exact ⟨n, hmem, .refl n⟩

theorem Op.part_within (h : op.Enabled s m es) : (op.part m s xs).Within m := by
  cases op with
  | insert x k =>
      obtain ⟨-, -, hx⟩ := h
      obtain ⟨nd, hx⟩ := Option.isSome_iff_exists.mp hx
      refine ⟨rfl, fun y n hn => ?_⟩
      by_cases hy : y = x
      · subst hy
        rw [Op.part, Mem.set_same] at hn
        cases hn
        exact ⟨nd, hx, nofun, nofun, nofun, nofun, nofun⟩
      · rw [Op.part, Mem.set_other _ _ hy] at hn
        exact (m.bare_within s xs).node y n hn
  | delete x => exact m.bare_within s xs

theorem Rep.withTop (h : Rep m κ s top [] t) (q : Ptr α) : Rep (m.withTop q) κ s q [] t := by
  obtain ⟨hs, hr, hn, ⟨sn, hsn, hsc⟩, -, hsub⟩ := h
  have hother : ∀ y, ptr s t ≠ .ref y → (m.withTop q).node y = m.node y := fun y hy =>
    if_neg (by rwa [hr])
  refine ⟨hs, hr, hn, ?_, trivial, ?_⟩
  · by_cases hroot : m.tree.root = .ref s
    · exact ⟨sn.setParent q, by simp [Mem.withTop, hroot, hsn], hsc⟩
    · exact ⟨sn, by simp [Mem.withTop, hroot, hsn], hsc⟩
  · cases t with
    | nil => trivial
    | node c l x r =>
        obtain ⟨hx, hl, hr'⟩ := hsub
        simp only [CPath.vals_nil, List.nil_append, CTree.inorder_node, List.nodup_cons,
          List.nodup_append, List.mem_append, List.mem_cons, not_or] at hn
        refine ⟨?_, hl.congr fun y hy => hother y ?_, hr'.congr fun y hy => hother y ?_⟩
        · have hroot : m.tree.root = .ref x := hr
          simp [Mem.withTop, hroot, hx]
        · rintro ⟨⟩
          exact hn.2.2.2 _ hy _ (by simp) rfl
        · rintro ⟨⟩
          exact hn.2.2.1.1 hy

theorem HoldsAt.withTop (h : HoldsAt m s top es) (q : Ptr α) : HoldsAt (m.withTop q) s q es := by
  obtain ⟨κ, t, hrep, hrb, hes, hs⟩ := h
  exact ⟨κ, t, hrep.withTop q, hrb, hes, hs⟩

theorem HoldsAt.bare (h : HoldsAt m s top es) : HoldsAt (m.bare s (es.map Prod.fst)) s top es := by
  obtain ⟨κ, t, hrep, hrb, rfl, hs⟩ := h
  obtain ⟨sn, hsn, hsc⟩ := hrep.nil_black
  refine ⟨κ, t, hrep.congr_nodes (fun y hy => ?_) ⟨_, Mem.bare_sentinel hsn _, hsc⟩ rfl, hrb, rfl,
    hs⟩
  have hys : y ≠ s := by
    rintro rfl
    exact hrep.sentinel_notMem hy
  exact Mem.bare_node hys (by simpa using hy)

theorem HoldsAt.part (h : HoldsAt m s top es) (hop : op.Enabled s m es) :
    HoldsAt (op.part m s (es.map Prod.fst)) s top es := by
  cases op with
  | insert x k =>
      obtain ⟨hxs, hxt, -⟩ := hop
      refine h.bare.congr (fun y hy => Mem.set_other _ _ ?_) rfl
      rintro rfl
      rcases List.mem_cons.mp hy with rfl | hy
      · exact hxs rfl
      · exact hxt hy
  | delete x => exact h.bare

theorem Op.Enabled.part (h : op.Enabled s m es) : op.Enabled s (op.part m s xs) es := by
  cases op with
  | insert x k => exact ⟨h.1, h.2.1, by simp [Op.part]⟩
  | delete x => exact h

theorem Op.Enabled.withTop (h : op.Enabled s m es) (q : Ptr α) : op.Enabled s (m.withTop q) es :=
  h.mono fun y _ hy => by
    simp only [Mem.withTop]
    split <;> simpa using hy

theorem Op.staysIn (h : Holds m s es) (hop : op.Enabled s m es) (hf : 2 * es.length + 1 < fuel) :
    op.StaysIn fuel m s (es.map Prod.fst) := by
  obtain ⟨top, h⟩ := holds_iff.mp h
  have hpart := h.part hop
  constructor
  · obtain ⟨v, μ', hr, -, -, hkept⟩ := op.run_specAt hpart hop.part hf
    obtain ⟨m', hr', hle⟩ := MemSim.within.run (Nat.le_refl _) op _ _ (Op.part_within hop) v μ' hr
    exact ⟨v, m', hr', v, μ', hr, hle, hkept⟩
  · intro q
    exact wp_mono (op.run_specAt (hpart.withTop q) (hop.part.withTop q) hf) fun _ _ _ => trivial

/-- The assertions on the sibling of the fix-up loop hold. -/
theorem Holds.delete_asserting (h : Holds m s es) (hx : x ∈ es.map Prod.fst)
    (hf : 2 * es.length + 1 < fuel) :
    wp (rbtreeDeleteAsserting s fuel (.ref x)) (fun _ m₁ =>
      wp (rbtreeDelete fuel (.ref x)) (fun _ m₂ => m₂ = m₁) m) m := by
  obtain ⟨κ, top, t, hrep, hrb, rfl, -⟩ := h
  have hx : x ∈ t.inorder := by simpa [Function.comp_def] using hx
  obtain ⟨v, m₁, hr, -⟩ := rbtreeDeleteAsserting_spec hrep hrb hx (by simpa using hf)
  obtain ⟨m₂, hr₂, heq⟩ := rbtreeDeleteAsserting_sim s fuel (.ref x) m m rfl v m₁ hr
  exact ⟨v, m₁, hr, v, m₂, hr₂, heq.symm⟩

/-- **Footprint.** On every tree that can be built, a call of `rbtree_insert` or
`rbtree_delete` reads nothing but the linked nodes, the node it inserts and the
sentinel's colour, or the sentinel's parent link once the deletion has set it.
The deletion with the assertions that the sibling in its fix-up loop is not the
sentinel returns, and the deletion does the same. -/
theorem tree_ops_confined {ops : List (Op α)} (hs : (m.node s).isSome) (hl : Legal s m ops [])
    (hf : 2 * ops.length + 1 < fuel) :
    wp (runFromInit fuel s ops) (fun _ m' => ∃ xs, InOrder m' s xs ∧
      (∀ x k, x ≠ s → x ∉ xs → (m'.node x).isSome → (Op.insert x k).StaysIn fuel m' s xs) ∧
      ∀ x ∈ xs, (Op.delete x).StaysIn fuel m' s xs ∧
        wp (rbtreeDeleteAsserting s fuel (.ref x)) (fun _ m₁ =>
          wp (rbtreeDelete fuel (.ref x)) (fun _ m₂ => m₂ = m₁) m') m') m := by
  refine wp_mono (runFromInit_spec hs hl (by omega)) ?_
  rintro _ m' ⟨h, -⟩
  have hlen := length_applyOps_le ops []
  simp only [List.length_nil] at hlen
  refine ⟨_, h.inOrder, fun x k hxs hxt hx => ?_, fun x hx => ⟨?_, ?_⟩⟩
  · have hop : (Op.insert x k).Enabled s m' (applyOps ops []) := ⟨hxs, hxt, hx⟩
    exact Op.staysIn h hop (by omega)
  · have hop : (Op.delete x).Enabled s m' (applyOps ops []) := hx
    exact Op.staysIn h hop (by omega)
  · exact h.delete_asserting hx (by omega)

theorem tree_ops_confined_three :
    wp (runFromInit 9 0 [.insert 1 5, .insert 2 5, .delete 1]) (fun _ m' => ∃ xs, InOrder m' 0 xs ∧
      (∀ x k, x ≠ 0 → x ∉ xs → (m'.node x).isSome → (Op.insert x k).StaysIn 9 m' 0 xs) ∧
      ∀ x ∈ xs, (Op.delete x).StaysIn 9 m' 0 xs ∧
        wp (rbtreeDeleteAsserting 0 9 (.ref x)) (fun _ m₁ =>
          wp (rbtreeDelete 9 (.ref x)) (fun _ m₂ => m₂ = m₁) m') m') blankMem :=
  tree_ops_confined rfl (by simp [Legal, Op.Enabled, Op.apply, insertEntry, blankMem]) (by decide)

end

end

end Bitzer
