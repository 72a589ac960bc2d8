import Bitzer.Rbtree.Delete
import Bitzer.Rbtree.Insert

/-!
# The tree as a sorted sequence

What the tree is for: a sequence of nodes with their keys, in key order, where
an insertion goes behind its equals and a deletion takes out one node by
identity. `Holds m s es` says that the memory holds a red-black tree with the
entries `es`; the operations refine `insertEntry` and `deleteEntry`.
-/

namespace Bitzer

open Lib

variable {α : Type}

/-- The entries with the new one behind all those with a key up to its own. -/
def insertEntry (x : α) (k : UInt64) (es : List (α × UInt64)) : List (α × UInt64) :=
  es.filter (fun e => decide (e.2 ≤ k)) ++ (x, k) :: es.filter (fun e => decide (k < e.2))

/-- The entries without the node `x`. -/
def deleteEntry [DecidableEq α] (x : α) (es : List (α × UInt64)) : List (α × UInt64) :=
  es.filter fun e => !decide (e.1 = x)

/-- The memory holds a red-black tree with the entries `es` from left to
right. -/
def Holds (m : Mem α) (s : α) (es : List (α × UInt64)) : Prop :=
  ∃ κ top t, Rep m κ s top [] t ∧ t.RedBlack ∧ es = t.inorder.map (fun y => (y, κ y)) ∧
    es.Pairwise fun d e => d.2 ≤ e.2

/-- The same with the root's parent link, which nothing follows. -/
def HoldsAt (m : Mem α) (s : α) (top : Ptr α) (es : List (α × UInt64)) : Prop :=
  ∃ κ t, Rep m κ s top [] t ∧ t.RedBlack ∧ es = t.inorder.map (fun y => (y, κ y)) ∧
    es.Pairwise fun d e => d.2 ≤ e.2

/-- The node is the root, and has a child on one side only. -/
def Mem.RootWithOneChild (m : Mem α) (s x : α) : Prop :=
  m.tree.root = .ref x ∧ ∃ d, (m.node x).bind (·.link d) = some (.ref s) ∧
    (m.node x).bind (·.link d.other) ≠ some (.ref s)

section
variable {m m' : Mem α} {s x y : α} {k : UInt64} {es : List (α × UInt64)} {fuel : Nat}
  {top : Ptr α}

theorem holds_iff : Holds m s es ↔ ∃ top, HoldsAt m s top es := by
  constructor
  · rintro ⟨κ, top, t, h⟩
    exact ⟨top, κ, t, h⟩
  · rintro ⟨top, κ, t, h⟩
    exact ⟨κ, top, t, h⟩

theorem Rep.rootWithOneChild_iff {κ : α → UInt64} {t : CTree α} (h : Rep m κ s top [] t)
    (hx : x ∈ t.inorder) :
    m.RootWithOneChild s x ↔ ∃ d c b, t = .join d c .nil x b ∧ b ≠ .nil := by
  have hfresh := h.nodup
  simp only [List.nodup_cons, CPath.vals_nil, List.nil_append] at hfresh
  constructor
  · rintro ⟨hroot, d, hnil, hchild⟩
    obtain ⟨c, a, y, b, rfl⟩ := CTree.exists_join d (t := t) (by rintro rfl; cases hx)
    rw [h.root_eq, fill_nil, ptr_join] at hroot
    cases hroot
    simp only [CTree.mem_inorder_join, not_or] at hfresh
    rw [h.node_eq, Option.bind_some, link_cell, Option.some.injEq,
      ptr_eq_sentinel hfresh.1.1] at hnil
    rw [h.node_eq, Option.bind_some, link_other_cell, ne_eq, Option.some.injEq,
      ptr_eq_sentinel hfresh.1.2.2] at hchild
    exact ⟨d, c, b, by rw [hnil], hchild⟩
  · rintro ⟨d, c, b, rfl, hb⟩
    simp only [CTree.mem_inorder_join, not_or] at hfresh
    refine ⟨by rw [h.root_eq, fill_nil, ptr_join], d, ?_, ?_⟩
    · rw [h.node_eq, Option.bind_some, link_cell, ptr_nil]
    · rw [h.node_eq, Option.bind_some, link_other_cell, ne_eq, Option.some.injEq,
        ptr_eq_sentinel hfresh.1.2.2]
      exact hb

theorem insertEntry_eq : insertEntry x k es =
    es.filter (fun e => !decide (k < e.2)) ++ (x, k) :: es.filter (fun e => decide (k < e.2)) := by
  simp [insertEntry, ← decide_not]

theorem mem_insertEntry {e : α × UInt64} :
    e ∈ insertEntry x k es ↔ e = (x, k) ∨ e ∈ es := by
  simp only [insertEntry_eq, List.mem_append, List.mem_filter, List.mem_cons]
  cases decide (k < e.2) with
  | false => simp; tauto
  | true => simp

theorem perm_insertEntry : (insertEntry x k es).Perm ((x, k) :: es) := by
  rw [insertEntry_eq]
  refine List.perm_middle.trans (List.Perm.cons _ ?_)
  refine List.perm_append_comm.trans ?_
  exact List.filter_append_perm (fun e => decide (k < e.2)) es

theorem insertEntry_sorted (h : es.Pairwise fun d e => d.2 ≤ e.2) :
    (insertEntry x k es).Pairwise fun d e => d.2 ≤ e.2 := by
  refine List.pairwise_append.mpr ⟨h.filter _, List.pairwise_cons.mpr ⟨fun e he => ?_, h.filter _⟩,
    fun d hd e he => ?_⟩
  · have := (List.mem_filter.mp he).2
    simp only [decide_eq_true_eq] at this
    exact UInt64.le_of_lt this
  · have hdk : d.2 ≤ k := by simpa using (List.mem_filter.mp hd).2
    rcases List.mem_cons.mp he with rfl | he
    · exact hdk
    · have hke : k < e.2 := by simpa using (List.mem_filter.mp he).2
      exact UInt64.le_of_lt (UInt64.lt_of_le_of_lt hdk hke)

theorem Holds.sorted (h : Holds m s es) : es.Pairwise fun d e => d.2 ≤ e.2 := by
  obtain ⟨κ, top, t, -, -, -, hs⟩ := h
  exact hs

theorem Holds.nodup (h : Holds m s es) : (s :: es.map Prod.fst).Nodup := by
  obtain ⟨κ, top, t, hrep, -, rfl, -⟩ := h
  simpa [Function.comp_def] using hrep.nodup

theorem Holds.sentinel (h : Holds m s es) : (m.node s).isSome = true := by
  obtain ⟨κ, top, t, hrep, -, -, -⟩ := h
  obtain ⟨n, hn, -⟩ := hrep.nil_black
  simp [hn]

/-- The key of an entry is the one in its node. -/
theorem Holds.node_key (h : Holds m s es) (hx : (x, k) ∈ es) :
    ∃ nd, m.node x = some nd ∧ nd.key = some k := by
  obtain ⟨κ, top, t, hrep, -, rfl, -⟩ := h
  obtain ⟨y, hy, he⟩ := List.mem_map.mp hx
  obtain ⟨rfl, rfl⟩ := Prod.mk.inj he
  obtain ⟨p, c, l, r, rfl⟩ := exists_fill hy
  exact ⟨_, (Rep.fill_iff.mpr hrep).node_eq (d := .left), key_cell ..⟩

/-- Nodes outside the tree are free. -/
theorem HoldsAt.congr (h : HoldsAt m s top es)
    (hm : ∀ y ∈ s :: es.map Prod.fst, m'.node y = m.node y) (ht : m'.tree = m.tree) :
    HoldsAt m' s top es := by
  obtain ⟨κ, t, hrep, hrb, rfl, hs⟩ := h
  refine ⟨κ, t, hrep.congr (fun y hy => hm y ?_) ht, hrb, rfl, hs⟩
  simpa [Function.comp_def] using hy

variable [DecidableEq α]

/-- The deletion of a root moves the root's parent link, unless it has two
children. -/
theorem eq_leaf_of_topAfter {t : CTree α} (h : topAfter top x t ≠ top)
    (hone : ∀ d c b, t = .join d c .nil x b → b = .nil) : ∃ c, t = .node c .nil x .nil := by
  cases t with
  | nil => exact absurd rfl h
  | node c l y r =>
      unfold topAfter at h
      by_cases hxy : x = y ∧ (l = .nil ∨ r = .nil)
      · obtain ⟨rfl, rfl | rfl⟩ := hxy
        · exact ⟨c, by rw [hone .left c r rfl]⟩
        · exact ⟨c, by rw [hone .right c l rfl]⟩
      · exact absurd (if_neg hxy) h

theorem mem_deleteEntry {e : α × UInt64} : e ∈ deleteEntry x es ↔ e ∈ es ∧ e.1 ≠ x := by
  simp [deleteEntry]

theorem deleteEntry_fst (hn : (es.map Prod.fst).Nodup) :
    (deleteEntry x es).map Prod.fst = (es.map Prod.fst).erase x := by
  rw [hn.erase_eq_filter, List.filter_map]
  refine congrArg _ (List.filter_congr fun e _ => ?_)
  cases h : decide (e.1 = x) <;> simp_all

/-- `rbtree_init`: the empty sequence. -/
theorem Holds.init {nd : RbtreeNode α} (hs : m.node s = some nd) :
    wp (rbtreeInit (.ref s)) (fun _ m' => Holds m' s [] ∧ SameOff [s] m m') m := by
  unfold rbtreeInit
  refine (wp_bind ..).mpr (wp_mono (rbtreeNodeInit_spec hs) ?_)
  rintro _ m₁ ⟨hs₁, ho₁, ht₁⟩
  refine (wp_bind ..).mpr ((wp_store hs₁).mpr ?_)
  refine (wp_of_run rfl).mpr
    ⟨⟨fun _ => 0, .null, .nil, ?_, ⟨rfl, 0, rfl⟩, rfl, List.Pairwise.nil⟩, ?_⟩
  · exact ⟨rfl, rfl, by simp, ⟨_, Mem.set_same .., rfl⟩, trivial, trivial⟩
  · exact ho₁.trans (SameOff.set (by simp) _ _)

/-- `rbtree_insert` of a node outside the tree: the first node has no parent. -/
theorem HoldsAt.insert {nd : RbtreeNode α} (h : HoldsAt m s top es) (hx : m.node x = some nd)
    (hk : nd.key = some k) (hxs : x ≠ s) (hxt : x ∉ es.map Prod.fst) (hf : es.length < fuel) :
    wp (rbtreeInsert fuel (.ref x)) (fun _ m' =>
      HoldsAt m' s (if es = [] then .null else top) (insertEntry x k es) ∧
        SameOff (x :: es.map Prod.fst) m m') m := by
  obtain ⟨κ, t, hrep, hrb, rfl, hs⟩ := h
  have hxt : x ∉ t.inorder := by simpa [Function.comp_def] using hxt
  -- the key of the new node is not constrained yet
  let κ' := Function.update κ x k
  have hκ : ∀ y ∈ t.inorder, κ' y = κ y := fun y hy =>
    Function.update_of_ne (ne_of_mem_of_not_mem hy hxt) _ _
  have hκx : κ' x = k := Function.update_self ..
  obtain ⟨h₁, h₂, h₃, h₄, -, h₆⟩ := hrep
  have hrep' : Rep m κ' s top [] t := ⟨h₁, h₂, h₃, h₄, trivial, h₆.congr_key hκ⟩
  have hsorted : t.inorder.Pairwise fun y z => κ' y ≤ κ' z := by
    refine (List.pairwise_map.mp hs).imp_of_mem fun {y z} hy hz hle => ?_
    rwa [hκ y hy, hκ z hz]
  refine wp_mono (rbtreeInsert_spec hrep' hrb hsorted hx (hκx ▸ hk) hxs hxt (by simpa using hf)) ?_
  rintro _ m' ⟨t', hrep', hrb', hi', ho'⟩
  have hes : insertEntry x k (t.inorder.map fun y => (y, κ y)) =
      t'.inorder.map fun y => (y, κ' y) := by
    have hmap : t.inorder.map (fun y => (y, κ y)) = t.inorder.map (fun y => (y, κ' y)) :=
      List.map_congr_left fun y hy => by rw [hκ y hy]
    rw [hmap, hi', hκx]
    simp [insertEntry_eq, List.filter_map, Function.comp_def, hκx]
  have htop : (if t = .nil then Ptr.null else top) =
      if t.inorder.map (fun y => (y, κ y)) = [] then .null else top :=
    if_congr (by cases t <;> simp) rfl rfl
  refine ⟨⟨κ', t', htop ▸ hrep', hrb', hes, insertEntry_sorted hs⟩, ?_⟩
  simpa [Function.comp_def] using ho'

/-- `rbtree_delete` of a node of the tree: a child that becomes the root keeps
its link to the node that was. -/
theorem HoldsAt.delete (h : HoldsAt m s top es) (hx : x ∈ es.map Prod.fst)
    (hf : 2 * es.length + 1 < fuel) :
    wp (rbtreeDelete fuel (.ref x)) (fun _ m' =>
      (∃ top', HoldsAt m' s top' (deleteEntry x es) ∧
        (m.RootWithOneChild s x → top' = .ref x ∧ deleteEntry x es ≠ []) ∧
        (¬m.RootWithOneChild s x → top' = top)) ∧
        (∃ nd, m'.node x = some nd ∧ nd.key = some 0) ∧
        SameOff (s :: es.map Prod.fst) m m' ∧ SentinelKept s m m') m := by
  obtain ⟨κ, t, hrep, hrb, rfl, hs⟩ := h
  have hn : t.inorder.Nodup := (List.nodup_cons.mp hrep.nodup).2
  have hx : x ∈ t.inorder := by simpa [Function.comp_def] using hx
  have hone := hrep.rootWithOneChild_iff hx
  refine wp_mono (rbtreeDelete_spec hrep hrb hx (by simpa using hf)) ?_
  rintro _ m' ⟨t', hrep', hrb', hi', hx', ho', hkept⟩
  have hes : deleteEntry x (t.inorder.map fun y => (y, κ y)) =
      t'.inorder.map fun y => (y, κ y) := by
    rw [hi', hn.erase_eq_filter]
    simp only [deleteEntry, List.filter_map, Function.comp_def]
    refine congrArg _ (List.filter_congr fun y _ => ?_)
    cases h : decide (y = x) <;> simp_all
  refine ⟨?_, hx', by simpa [Function.comp_def] using ho', hkept⟩
  by_cases hroot : m.RootWithOneChild s x
  · obtain ⟨d, c, b, rfl, hb⟩ := hone.mp hroot
    have htop : topAfter top x (.join d c .nil x b) = .ref x := by
      cases d <;> simp [topAfter, CTree.join]
    refine ⟨.ref x, ⟨κ, t', htop ▸ hrep', hrb', hes, hs.filter _⟩, fun _ => ⟨rfl, ?_⟩,
      absurd hroot⟩
    -- the child is left
    obtain ⟨c', l, z, r, rfl⟩ := CTree.exists_join .left hb
    have hxz : z ≠ x := by
      rintro rfl
      simp [CTree.nodup_inorder_join] at hn
    refine List.ne_nil_of_mem (mem_deleteEntry.mpr ⟨List.mem_map.mpr ⟨z, ?_, rfl⟩, hxz⟩)
    simp
  · refine ⟨top, ⟨κ, t', ?_, hrb', hes, hs.filter _⟩, fun h => absurd h hroot, fun _ => rfl⟩
    by_cases hkept : topAfter top x t = top
    · rwa [hkept] at hrep'
    · -- the last node: nothing is left that has a parent
      obtain ⟨c, rfl⟩ := eq_leaf_of_topAfter hkept fun d c b ht =>
        not_not.mp fun hb => hroot (hone.mpr ⟨d, c, b, ht, hb⟩)
      obtain rfl : t' = .nil := by
        cases t' with
        | nil => rfl
        | node c l y r => simp at hi'
      obtain ⟨h₁, h₂, h₃, h₄, -, -⟩ := hrep'
      exact ⟨h₁, h₂, h₃, h₄, trivial, trivial⟩

/-- `rbtree_insert` of a node outside the tree. -/
theorem Holds.insert {nd : RbtreeNode α} (h : Holds m s es) (hx : m.node x = some nd)
    (hk : nd.key = some k) (hxs : x ≠ s) (hxt : x ∉ es.map Prod.fst) (hf : es.length < fuel) :
    wp (rbtreeInsert fuel (.ref x)) (fun _ m' =>
      Holds m' s (insertEntry x k es) ∧ SameOff (x :: es.map Prod.fst) m m') m := by
  obtain ⟨top, h⟩ := holds_iff.mp h
  refine wp_mono (h.insert hx hk hxs hxt hf) ?_
  rintro _ m' ⟨h', ho⟩
  exact ⟨holds_iff.mpr ⟨_, h'⟩, ho⟩

/-- `rbtree_delete` of a node of the tree. -/
theorem Holds.delete (h : Holds m s es) (hx : x ∈ es.map Prod.fst)
    (hf : 2 * es.length + 1 < fuel) :
    wp (rbtreeDelete fuel (.ref x)) (fun _ m' =>
      Holds m' s (deleteEntry x es) ∧ (∃ nd, m'.node x = some nd ∧ nd.key = some 0) ∧
        SameOff (s :: es.map Prod.fst) m m') m := by
  obtain ⟨top, h⟩ := holds_iff.mp h
  refine wp_mono (h.delete hx hf) ?_
  rintro _ m' ⟨⟨top', h', -, -⟩, hx', ho, -⟩
  exact ⟨holds_iff.mpr ⟨_, h'⟩, hx', ho⟩

end

end Bitzer
