import Bitzer.Rbtree.Holds

/-!
# Runs of tree operations

Sequences of insertions of unlinked nodes and deletions of linked ones, from
`rbtree_init`. `WellFormed` states the representation invariant on the memory
alone: the tree is what the links unfold to from the root. Each operation keeps
it (`Op.run_spec`), hence so does every run, and the node sequence it leaves is
the one of the abstract operations.
-/

namespace Bitzer

open Lib

variable {α : Type}

/-- The tree that unfolds from a pointer along left and right links, down to
the sentinel. -/
def Unfolds (m : Mem α) (s : α) : Ptr α → CTree α → Prop
  | p, .nil => p = .ref s
  | p, .node c l x r => p = .ref x ∧ x ≠ s ∧ ∃ n pl pr, m.node x = some n ∧ n.color = some c ∧
      n.left = some pl ∧ n.right = some pr ∧ Unfolds m s pl l ∧ Unfolds m s pr r

/-- The key in a node; 0 if there is none. -/
def keyAt (m : Mem α) (x : α) : UInt64 := ((m.node x).bind (·.key)).getD 0

/-- The linked nodes from left to right. -/
def InOrder (m : Mem α) (s : α) (xs : List α) : Prop :=
  ∃ t, Unfolds m s m.tree.root t ∧ t.inorder = xs ∧ xs.Nodup ∧
    ∀ x ∈ xs, ∃ n, m.node x = some n ∧ n.key = some (keyAt m x)

/-- The representation invariant of the tree `t` that unfolds from the root. -/
structure WellFormed (m : Mem α) (s : α) (t : CTree α) : Prop where
  unfolds : Unfolds m s m.tree.root t
  sentinel_eq : m.tree.sentinel = .ref s
  nodup : t.inorder.Nodup
  sentinel_black : (m.node s).bind (·.color) = some .black
  root_black : t.rootColor = .black
  noRedRed : t.NoRedRed
  blacks_eq : ∃ n, ∀ k ∈ t.pathBlacks, k = n
  sorted : t.inorder.Pairwise fun x y => keyAt m x ≤ keyAt m y
  parent : ∀ x ∈ t.inorder, .ref x ≠ m.tree.root → ∃ y ∈ t.inorder,
    (m.node x).bind (·.parent) = some (.ref y) ∧
      ((m.node y).bind (·.left) = some (.ref x) ∨ (m.node y).bind (·.right) = some (.ref x))

inductive Op (α : Type) where
  | insert (x : α) (k : UInt64)
  | delete (x : α)

section
variable {m m' : Mem α} {s x y : α} {k : UInt64} {es : List (α × UInt64)} {fuel : Nat}
  {κ : α → UInt64} {top par : Ptr α} {p : Ptr α} {t t' : CTree α}

theorem keyAt_eq {n : RbtreeNode α} (hn : m.node x = some n) (hk : n.key = some k) :
    keyAt m x = k := by
  simp [keyAt, hn, hk]

/-- A pointer unfolds to one tree only. -/
theorem Unfolds.unique (h : Unfolds m s p t) (h' : Unfolds m s p t') : t = t' := by
  induction t generalizing p t' with
  | nil =>
      cases t' with
      | nil => rfl
      | node c l x r =>
          obtain ⟨hp, hx, -⟩ := h'
          rw [h] at hp
          cases hp
          exact absurd rfl hx
  | node c l x r ihl ihr =>
      obtain ⟨rfl, hx, n, pl, pr, hn, hc, hl, hr, hul, hur⟩ := h
      cases t' with
      | nil =>
          cases h'
          exact absurd rfl hx
      | node c' l' x' r' =>
          obtain ⟨hp, -, n', pl', pr', hn', hc', hl', hr', hul', hur'⟩ := h'
          cases hp
          rw [hn] at hn'
          cases hn'
          rw [hc] at hc'
          rw [hl] at hl'
          rw [hr] at hr'
          cases hc'
          cases hl'
          cases hr'
          rw [ihl hul hul', ihr hur hur']

theorem At.unfolds (h : At m κ s par t) (hs : s ∉ t.inorder) : Unfolds m s (ptr s t) t := by
  induction t generalizing par with
  | nil => rfl
  | node c l x r ihl ihr =>
      obtain ⟨hx, hl, hr⟩ := h
      simp only [CTree.inorder_node, List.mem_append, List.mem_cons, not_or] at hs
      exact ⟨rfl, Ne.symm hs.2.1, _, _, _, hx, rfl, rfl, rfl, ihl hl hs.1, ihr hr hs.2.2⟩

/-- The node above the hole has the hole's node as a child, and is its
parent. -/
theorem Rep.parent_link {f : Frame α} {q : CPath α} {c : Color} {l r : CTree α}
    (h : Rep m κ s top (f :: q) (.node c l x r)) :
    (m.node x).bind (·.parent) = some (.ref f.val) ∧
      ((m.node f.val).bind (·.left) = some (.ref x) ∨
        (m.node f.val).bind (·.right) = some (.ref x)) := by
  refine ⟨by rw [h.node_eq (d := .left)]; rfl, ?_⟩
  obtain ⟨d, c', y, w⟩ := f
  rw [h.top_eq]
  cases d with
  | left => exact Or.inl rfl
  | right => exact Or.inr rfl

theorem Rep.wellFormed (h : Rep m κ s top [] t) (hrb : t.RedBlack)
    (hsorted : t.inorder.Pairwise fun x y => κ x ≤ κ y) : WellFormed m s t := by
  have hn := List.nodup_cons.mp h.nodup
  simp only [CPath.vals_nil, List.nil_append] at hn
  obtain ⟨hroot, hred, hblacks⟩ := (CTree.redBlack_iff t).mp hrb
  have hkey : ∀ x ∈ t.inorder, keyAt m x = κ x := fun x hx => by
    obtain ⟨p, c, l, r, rfl⟩ := exists_fill hx
    exact keyAt_eq ((Rep.fill_iff.mpr h).node_eq (d := .left)) (key_cell ..)
  refine ⟨?_, h.sentinel_eq, hn.2, ?_, hroot, hred, hblacks, ?_, ?_⟩
  · rw [h.root_eq]
    exact h.sub.unfolds hn.1
  · obtain ⟨n, hn, hc⟩ := h.nil_black
    simp [hn, hc]
  · refine hsorted.imp_of_mem fun {x y} hx hy hle => ?_
    rwa [hkey x hx, hkey y hy]
  · intro x hx hne
    obtain ⟨p, c, l, r, rfl⟩ := exists_fill hx
    cases p with
    | nil => exact absurd h.root_eq.symm hne
    | cons f q => exact ⟨f.val, by simp, (Rep.fill_iff.mpr h).parent_link⟩

theorem Holds.wellFormed (h : Holds m s es) :
    ∃ t, WellFormed m s t ∧ t.inorder = es.map Prod.fst := by
  obtain ⟨κ, top, t, hrep, hrb, rfl, hs⟩ := h
  exact ⟨t, hrep.wellFormed hrb (by simpa [List.pairwise_map] using hs),
    by simp [Function.comp_def]⟩

theorem Holds.keyAt_eq (h : Holds m s es) {e : α × UInt64} (he : e ∈ es) : keyAt m e.1 = e.2 := by
  obtain ⟨n, hn, hk⟩ := h.node_key he
  exact Bitzer.keyAt_eq hn hk

theorem Holds.inOrder (h : Holds m s es) : InOrder m s (es.map Prod.fst) := by
  obtain ⟨t, hw, hi⟩ := h.wellFormed
  refine ⟨t, hw.unfolds, hi, hi ▸ hw.nodup, fun x hx => ?_⟩
  obtain ⟨e, he, rfl⟩ := List.mem_map.mp hx
  obtain ⟨n, hn, hk⟩ := h.node_key he
  exact ⟨n, hn, by rw [h.keyAt_eq he, hk]⟩

/-- An insertion is of an allocated node that is not linked, a deletion of a
linked one. -/
def Op.Enabled (s : α) (m : Mem α) (es : List (α × UInt64)) : Op α → Prop
  | .insert x _ => x ≠ s ∧ x ∉ es.map Prod.fst ∧ (m.node x).isSome
  | .delete x => x ∈ es.map Prod.fst

theorem Op.Enabled.mono {op : Op α} (h : op.Enabled s m es)
    (hm : ∀ y, y ≠ s → (m.node y).isSome → (m'.node y).isSome) : op.Enabled s m' es := by
  cases op with
  | insert x k => exact ⟨h.1, h.2.1, hm x h.1 h.2.2⟩
  | delete x => exact h

/-- Selecting entries by key is selecting nodes by key. -/
theorem Holds.map_filter (h : Holds m s es) (p : UInt64 → Bool) :
    (es.filter fun e => p e.2).map Prod.fst = (es.map Prod.fst).filter fun y => p (keyAt m y) := by
  rw [List.filter_map]
  refine congrArg _ (List.filter_congr fun e he => ?_)
  rw [Function.comp_apply, h.keyAt_eq he]

/-- The root's parent link is null, or there is no root. -/
def NoParent (top : Ptr α) (es : List (α × UInt64)) : Prop := es = [] ∨ top = .null

/-- The operation deletes the root from above its only child. -/
def Op.Orphans (m : Mem α) (s : α) : Op α → Prop
  | .insert _ _ => False
  | .delete x => m.RootWithOneChild s x

/-- An insertion leaves the sentinel alone; a deletion may set its parent link. -/
def Op.KeepsSentinel (s : α) (m m' : Mem α) : Op α → Prop
  | .insert _ _ => m'.node s = m.node s
  | .delete _ => SentinelKept s m m'

variable [DecidableEq α]

/-- The program of an operation; the caller sets the key of the node it
inserts. -/
def Op.run (fuel : Nat) : Op α → Prog (Mem α) Unit
  | .insert x k => do
      setKey (.ref x) k
      rbtreeInsert fuel (.ref x)
  | .delete x => rbtreeDelete fuel (.ref x)

/-- What an operation does to the entries. -/
def Op.apply : Op α → List (α × UInt64) → List (α × UInt64)
  | .insert x k, es => insertEntry x k es
  | .delete x, es => deleteEntry x es

/-- One operation, and what it does to the root's parent link: a root that is
deleted from above its only child is the child's parent from then on. No node is
deallocated. -/
theorem Op.run_specAt {op : Op α} (h : HoldsAt m s top es) (hop : op.Enabled s m es)
    (hf : 2 * es.length + 1 < fuel) :
    wp (op.run fuel) (fun _ m' =>
      (∃ top', HoldsAt m' s top' (op.apply es) ∧
        (NoParent top es → (NoParent top' (op.apply es) ↔ ¬op.Orphans m s))) ∧
      (∀ y, y ≠ s → (m.node y).isSome → (m'.node y).isSome) ∧ op.KeepsSentinel s m m') m := by
  cases op with
  | insert x k =>
      obtain ⟨hxs, hxt, hx⟩ := hop
      obtain ⟨nd, hx⟩ := Option.isSome_iff_exists.mp hx
      refine (wp_bind ..).mpr ((wp_store hx).mpr ?_)
      have hne : ∀ y ∈ s :: es.map Prod.fst, y ≠ x := by
        rintro y hy rfl
        rcases List.mem_cons.mp hy with rfl | hy
        · exact hxs rfl
        · exact hxt hy
      have h₁ : HoldsAt (m.set x (nd.setKey k)) s top es :=
        h.congr (fun y hy => Mem.set_other _ _ (hne y hy)) rfl
      refine wp_mono (h₁.insert (Mem.set_same ..) rfl hxs hxt (by omega)) ?_
      rintro _ m' ⟨h', ho⟩
      have hs : s ∉ x :: es.map Prod.fst := by
        simpa [Ne.symm hxs] using (List.nodup_cons.mp (holds_iff.mpr ⟨_, h⟩).nodup).1
      refine ⟨⟨_, h', fun hno => iff_of_true (Or.inr ?_) id⟩, fun y _ hy => ?_,
        (ho s hs).trans (Mem.set_other _ _ (Ne.symm hxs))⟩
      · by_cases hes : es = []
        · rw [if_pos hes]
        · rw [if_neg hes]
          exact hno.resolve_left hes
      by_cases hmem : y ∈ x :: es.map Prod.fst
      · have : y ∈ (insertEntry x k es).map Prod.fst :=
          (perm_insertEntry.map Prod.fst).mem_iff.mpr hmem
        obtain ⟨e, he, rfl⟩ := List.mem_map.mp this
        obtain ⟨n, hn, -⟩ := (holds_iff.mpr ⟨_, h'⟩).node_key he
        simp [hn]
      · rw [ho y hmem, Mem.set_other _ _ (List.ne_of_not_mem_cons hmem)]
        exact hy
  | delete x =>
      refine wp_mono (h.delete hop hf) ?_
      rintro _ m' ⟨⟨top', h', hroot, hother⟩, ⟨nd, hx', -⟩, ho, hkept⟩
      refine ⟨⟨top', h', fun hno => ?_⟩, fun y hys hy => ?_, hkept⟩
      · have hes : es ≠ [] := by
          rintro rfl
          cases hop
        by_cases horphan : m.RootWithOneChild s x
        · obtain ⟨rfl, hne⟩ := hroot horphan
          refine iff_of_false (fun h => ?_) fun h => h horphan
          rcases h with h | h
          · exact hne h
          · cases h
        · rw [hother horphan]
          exact iff_of_true (Or.inr (hno.resolve_left hes)) horphan
      · by_cases hyx : y = x
        · simp [hyx, hx']
        · by_cases hmem : y ∈ es.map Prod.fst
          · obtain ⟨e, he, rfl⟩ := List.mem_map.mp hmem
            obtain ⟨n, hn, -⟩ :=
              (holds_iff.mpr ⟨_, h'⟩).node_key (mem_deleteEntry.mpr ⟨he, hyx⟩)
            simp [hn]
          · rw [ho y (by simp only [List.mem_cons]; tauto)]
            exact hy

/-- One operation refines its abstract one. -/
theorem Op.run_spec {op : Op α} (h : Holds m s es) (hop : op.Enabled s m es)
    (hf : 2 * es.length + 1 < fuel) :
    wp (op.run fuel) (fun _ m' => Holds m' s (op.apply es) ∧
      ∀ y, y ≠ s → (m.node y).isSome → (m'.node y).isSome) m := by
  obtain ⟨top, h⟩ := holds_iff.mp h
  refine wp_mono (op.run_specAt h hop hf) ?_
  rintro _ m' ⟨⟨top', h', -⟩, hm', -⟩
  exact ⟨holds_iff.mpr ⟨_, h'⟩, hm'⟩

/-- A run of operations. -/
def runOps (fuel : Nat) : List (Op α) → Prog (Mem α) Unit
  | [] => pure ()
  | op :: ops => do
      op.run fuel
      runOps fuel ops

/-- The entries after a run. -/
def applyOps : List (Op α) → List (α × UInt64) → List (α × UInt64)
  | [], es => es
  | op :: ops, es => applyOps ops (op.apply es)

/-- Every operation of the run is enabled when it is reached, the nodes in `m`
being the allocated ones. -/
def Legal (s : α) (m : Mem α) : List (Op α) → List (α × UInt64) → Prop
  | [], _ => True
  | op :: ops, es => op.Enabled s m es ∧ Legal s m ops (op.apply es)

theorem Legal.mono {ops : List (Op α)} (h : Legal s m ops es)
    (hm : ∀ y, y ≠ s → (m.node y).isSome → (m'.node y).isSome) : Legal s m' ops es := by
  induction ops generalizing es with
  | nil => trivial
  | cons op ops ih => exact ⟨h.1.mono hm, ih h.2⟩

theorem Op.length_apply_le (op : Op α) (es : List (α × UInt64)) :
    (op.apply es).length ≤ es.length + 1 := by
  cases op with
  | insert x k => exact Nat.le_of_eq perm_insertEntry.length_eq
  | delete x => exact Nat.le_succ_of_le (List.length_filter_le _ _)

theorem length_applyOps_le (ops : List (Op α)) (es : List (α × UInt64)) :
    (applyOps ops es).length ≤ es.length + ops.length := by
  induction ops generalizing es with
  | nil => exact Nat.le_refl _
  | cons op ops ih =>
      have hop := op.length_apply_le es
      have := ih (op.apply es)
      simp only [applyOps, List.length_cons]
      omega

/-- A run refines the abstract one. -/
theorem runOps_spec {ops : List (Op α)} (h : Holds m s es) (hl : Legal s m ops es)
    (hf : 2 * (es.length + ops.length) < fuel) :
    wp (runOps fuel ops) (fun _ m' => Holds m' s (applyOps ops es) ∧
      ∀ y, y ≠ s → (m.node y).isSome → (m'.node y).isSome) m := by
  induction ops generalizing m es with
  | nil => exact (wp_pure ..).mpr ⟨h, fun _ _ hy => hy⟩
  | cons op ops ih =>
      simp only [List.length_cons] at hf
      refine (wp_bind ..).mpr (wp_mono (op.run_spec h hl.1 (by omega)) ?_)
      rintro _ m₁ ⟨h₁, hm₁⟩
      have hlen := op.length_apply_le es
      refine wp_mono (ih h₁ (hl.2.mono hm₁) (by omega)) ?_
      rintro _ m₂ ⟨h₂, hm₂⟩
      exact ⟨h₂, fun y hys hy => hm₂ y hys (hm₁ y hys hy)⟩

/-- A run from `rbtree_init`. -/
def runFromInit (fuel : Nat) (s : α) (ops : List (Op α)) : Prog (Mem α) Unit := do
  rbtreeInit (.ref s)
  runOps fuel ops

theorem runFromInit_spec {ops : List (Op α)} (hs : (m.node s).isSome) (hl : Legal s m ops [])
    (hf : 2 * ops.length < fuel) :
    wp (runFromInit fuel s ops) (fun _ m' => Holds m' s (applyOps ops []) ∧
      ∀ y, y ≠ s → (m.node y).isSome → (m'.node y).isSome) m := by
  obtain ⟨nd, hs⟩ := Option.isSome_iff_exists.mp hs
  refine (wp_bind ..).mpr (wp_mono (Holds.init hs) ?_)
  rintro _ m₁ ⟨h₁, ho₁⟩
  have hm₁ : ∀ y, y ≠ s → (m.node y).isSome → (m₁.node y).isSome := fun y hys hy => by
    rwa [ho₁ y (by simpa using hys)]
  refine wp_mono (runOps_spec h₁ (hl.mono hm₁) (by simpa using hf)) ?_
  rintro _ m₂ ⟨h₂, hm₂⟩
  exact ⟨h₂, fun y hys hy => hm₂ y hys (hm₁ y hys hy)⟩

/-- The next operation acts on the nodes `xs` as on a sorted list: the new node
goes between the keys up to its own and the greater ones, a deleted node leaves
by identity, and no other key changes. -/
def ActsAsList (fuel : Nat) (m : Mem α) (s : α) (xs : List α) : Prop :=
  (∀ x k, x ≠ s → x ∉ xs → (m.node x).isSome →
    wp ((Op.insert x k).run fuel) (fun _ m' =>
      InOrder m' s (xs.filter (fun y => keyAt m y ≤ k) ++ [x] ++
        xs.filter (fun y => k < keyAt m y)) ∧
      keyAt m' x = k ∧ ∀ y ∈ xs, keyAt m' y = keyAt m y) m) ∧
  ∀ x ∈ xs, wp ((Op.delete x).run fuel) (fun _ m' =>
    InOrder m' s (xs.erase x) ∧ ∀ y ∈ xs.erase x, keyAt m' y = keyAt m y) m

/-- A memory whose nodes are all allocated and hold nothing yet. -/
def blankMem : Mem Nat := ⟨fun _ => some {}, ⟨.null, .null⟩⟩

/-- The representation invariant after every run from `rbtree_init`. -/
theorem rbtree_wellFormed {m : Mem α} {s : α} {ops : List (Op α)} {fuel : Nat}
    (hs : (m.node s).isSome) (hl : Legal s m ops []) (hf : 2 * ops.length < fuel) :
    wp (runFromInit fuel s ops) (fun _ m' => ∃ t, WellFormed m' s t) m := by
  refine wp_mono (runFromInit_spec hs hl hf) ?_
  rintro _ m' ⟨h, -⟩
  obtain ⟨t, ht, -⟩ := h.wellFormed
  exact ⟨t, ht⟩

theorem rbtree_wellFormed_three :
    wp (runFromInit 9 0 [.insert 1 5, .insert 2 5, .delete 1])
      (fun _ m' => ∃ t, WellFormed m' 0 t) blankMem :=
  rbtree_wellFormed rfl (by simp [Legal, Op.Enabled, Op.apply, insertEntry, blankMem]) (by decide)

/-- After every run from `rbtree_init` the tree is the sequence of the nodes
that were inserted and not deleted, and goes on as one. -/
theorem rbtree_refines {m : Mem α} {s : α} {ops : List (Op α)} {fuel : Nat}
    (hs : (m.node s).isSome) (hl : Legal s m ops []) (hf : 2 * ops.length + 1 < fuel) :
    wp (runFromInit fuel s ops) (fun _ m' => ∃ xs, InOrder m' s xs ∧
      xs = (applyOps ops []).map Prod.fst ∧ ActsAsList fuel m' s xs) m := by
  refine wp_mono (runFromInit_spec hs hl (by omega)) ?_
  rintro _ m' ⟨h, -⟩
  have hlen := length_applyOps_le ops []
  rw [List.length_nil, Nat.zero_add] at hlen
  refine ⟨_, h.inOrder, rfl, fun x k hxs hxt hx => ?_, fun x hx => ?_⟩
  · have hop : (Op.insert x k).Enabled s m' (applyOps ops []) := ⟨hxs, hxt, hx⟩
    refine wp_mono (Op.run_spec h hop (by omega)) ?_
    rintro _ m₂ ⟨h₂, -⟩
    have hle := h.map_filter fun j => j ≤ k
    have hlt := h.map_filter fun j => k < j
    refine ⟨?_, h₂.keyAt_eq (mem_insertEntry.mpr (Or.inl rfl)), fun y hy => ?_⟩
    · rw [← hle, ← hlt, List.append_assoc]
      have := h₂.inOrder
      rwa [Op.apply, insertEntry, List.map_append, List.map_cons] at this
    · obtain ⟨e, he, rfl⟩ := List.mem_map.mp hy
      rw [h.keyAt_eq he, h₂.keyAt_eq (mem_insertEntry.mpr (Or.inr he))]
  · have hop : (Op.delete x).Enabled s m' (applyOps ops []) := hx
    refine wp_mono (Op.run_spec h hop (by omega)) ?_
    rintro _ m₂ ⟨h₂, -⟩
    have hfst := deleteEntry_fst (x := x) (List.nodup_cons.mp h.nodup).2
    rw [← hfst]
    refine ⟨h₂.inOrder, fun y hy => ?_⟩
    obtain ⟨e, he, rfl⟩ := List.mem_map.mp hy
    rw [h.keyAt_eq (mem_deleteEntry.mp he).1, h₂.keyAt_eq he]

theorem rbtree_refines_three :
    wp (runFromInit 9 0 [.insert 1 5, .insert 2 5, .delete 1])
      (fun _ m' => ∃ xs, InOrder m' 0 xs ∧ xs = [2] ∧ ActsAsList 9 m' 0 xs) blankMem :=
  rbtree_refines rfl (by simp [Legal, Op.Enabled, Op.apply, insertEntry, blankMem]) (by decide)

end

end Bitzer
