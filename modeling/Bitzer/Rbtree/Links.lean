import Mathlib.Data.List.Induction
import Bitzer.Rbtree.Run

/-!
# Links to removed nodes

Where the links of the linked nodes lead. `rbtree_insert` gives a first node no
parent; the early return of `rbtree_delete` leaves the link of the new root to
the node that was deleted above it.
-/

namespace Bitzer

open Lib

variable {α : Type}

/-- The links of the nodes `xs` stay among them; the root has no parent. -/
structure LinksWithin (m : Mem α) (s : α) (xs : List α) : Prop where
  child : ∀ y ∈ xs, ∀ d, ∃ p, (m.node y).bind (·.link d) = some p ∧
    (p = .ref s ∨ ∃ z ∈ xs, p = .ref z)
  parent : ∀ y ∈ xs, .ref y ≠ m.tree.root →
    ∃ z ∈ xs, (m.node y).bind (·.parent) = some (.ref z)
  root : ∀ y ∈ xs, .ref y = m.tree.root → (m.node y).bind (·.parent) = some .null

/-- No link of a linked node leads to a node that is not linked. -/
def NoStaleLink (m : Mem α) (s : α) : Prop := ∃ xs, InOrder m s xs ∧ LinksWithin m s xs

section
variable {m m' : Mem α} {κ : α → UInt64} {s : α} {top : Ptr α} {es : List (α × UInt64)}
  {xs ys : List α} {p : CPath α} {t : CTree α} {y : α} {d : Side}

theorem InOrder.unique (h : InOrder m s xs) (h' : InOrder m s ys) : xs = ys := by
  obtain ⟨t, ht, rfl, -⟩ := h
  obtain ⟨t', ht', rfl, -⟩ := h'
  rw [ht.unique ht']

/-- A pointer to a subtree leads to the sentinel or into the tree. -/
theorem ptr_cases (s : α) (t : CTree α) : ptr s t = .ref s ∨ ∃ z ∈ t.inorder, ptr s t = .ref z := by
  cases t with
  | nil => exact Or.inl rfl
  | node c l z r => exact Or.inr ⟨z, by simp, rfl⟩

theorem Rep.linksWithin (h : Rep m κ s .null [] t) : LinksWithin m s t.inorder := by
  have hnode : ∀ y ∈ t.inorder, ∃ p c l r, t = fill p (.node c l y r) ∧
      m.node y = some (cell .left (ptr s l) (ptr s r) (parOf .null p) (κ y) c) := by
    intro y hy
    obtain ⟨p, c, l, r, rfl⟩ := exists_fill hy
    exact ⟨p, c, l, r, rfl, (Rep.fill_iff.mpr h).node_eq (d := .left)⟩
  refine ⟨fun y hy d => ?_, fun y hy hne => ?_, fun y hy hroot => ?_⟩
  · obtain ⟨p, c, l, r, rfl, hn⟩ := hnode y hy
    have hsub : ∀ b : CTree α, (∀ z ∈ b.inorder, z ∈ l.inorder ∨ z ∈ r.inorder) →
        ptr s b = .ref s ∨ ∃ z ∈ (fill p (.node c l y r)).inorder, ptr s b = .ref z := by
      intro b hb
      refine (ptr_cases s b).imp_right ?_
      rintro ⟨z, hz, heq⟩
      refine ⟨z, mem_fill ?_, heq⟩
      rw [CTree.inorder_node, List.mem_append, List.mem_cons]
      exact (hb z hz).imp_right Or.inr
    rw [hn]
    cases d with
    | left => exact ⟨_, rfl, hsub l fun z hz => Or.inl hz⟩
    | right => exact ⟨_, rfl, hsub r fun z hz => Or.inr hz⟩
  · obtain ⟨p, c, l, r, rfl, hn⟩ := hnode y hy
    rw [hn]
    cases p with
    | nil => exact absurd h.root_eq.symm hne
    | cons f q => exact ⟨f.val, by simp, rfl⟩
  · obtain ⟨p, c, l, r, rfl, hn⟩ := hnode y hy
    rw [hn]
    cases p with
    | nil => rfl
    | cons f q =>
        have hrep := Rep.fill_iff.mpr h
        exact absurd (hroot.trans hrep.root_eq) (by simpa using hrep.ptr_ne_root)

/-- All depends on the root's parent link. -/
theorem HoldsAt.noStaleLink_iff (h : HoldsAt m s top es) : NoStaleLink m s ↔ NoParent top es := by
  have hin := (holds_iff.mpr ⟨_, h⟩).inOrder
  obtain ⟨κ, t, hrep, -, rfl, -⟩ := h
  constructor
  · rintro ⟨xs, hxs, hlinks⟩
    cases t with
    | nil => exact Or.inl rfl
    | node c l y r =>
        have hn := hrep.node_eq (d := .left)
        have hy : y ∈ xs := by
          rw [hxs.unique hin]
          simp
        have hnull := hlinks.root y hy hrep.root_eq.symm
        rw [hn] at hnull
        exact Or.inr (Option.some.inj hnull)
  · intro hno
    refine ⟨_, hin, ?_⟩
    rw [List.map_map]
    rcases hno with hnil | rfl
    · cases t with
      | nil => exact ⟨nofun, nofun, nofun⟩
      | node c l y r => simp at hnil
    · simpa [Function.comp_def] using hrep.linksWithin

theorem NoStaleLink.root_parent (h : NoStaleLink m s) (hroot : m.tree.root = .ref y)
    (hy : y ≠ s) : (m.node y).bind (·.parent) = some .null := by
  obtain ⟨xs, ⟨t, hunfolds, rfl, -⟩, hlinks⟩ := h
  refine hlinks.root y ?_ hroot.symm
  rw [hroot] at hunfolds
  cases t with
  | nil =>
      cases hunfolds
      exact absurd rfl hy
  | node c l z r =>
      obtain ⟨heq, -⟩ := hunfolds
      cases heq
      simp

/-! ## Runs -/

variable [DecidableEq α] {fuel : Nat} {ops done rest : List (Op α)} {op : Op α}
  {Q : Unit → Mem α → Prop}

theorem runOps_append (fuel : Nat) (done rest : List (Op α)) :
    runOps fuel (done ++ rest) = runOps fuel done >>= fun _ => runOps fuel rest := by
  induction done with
  | nil => rfl
  | cons op done ih =>
      rw [List.cons_append, runOps, runOps, ih, bind_assoc]

/-- A run with one more operation. -/
theorem wp_runFromInit_snoc : wp (runFromInit fuel s (done ++ [op])) Q m ↔
    wp (runFromInit fuel s done) (fun _ => wp (op.run fuel) Q) m := by
  have hone : runOps fuel [op] = op.run fuel := bind_pure (op.run fuel)
  rw [runFromInit, runFromInit, runOps_append, hone, wp_bind, wp_bind]
  simp only [wp_bind]

theorem legal_append : Legal s m (done ++ rest) es ↔
    Legal s m done es ∧ Legal s m rest (applyOps done es) := by
  induction done generalizing es with
  | nil => simp [Legal, applyOps]
  | cons op done ih => simp only [List.cons_append, Legal, applyOps, ih, and_assoc]

/-- Before an operation of a run, it is enabled, and there is fuel for it. -/
theorem runFromInit_next (hs : (m.node s).isSome) (hl : Legal s m (done ++ op :: rest) [])
    (hf : 2 * (done ++ op :: rest).length < fuel) :
    wp (runFromInit fuel s done) (fun _ m' => Holds m' s (applyOps done []) ∧
      op.Enabled s m' (applyOps done []) ∧ 2 * (applyOps done []).length + 1 < fuel) m := by
  obtain ⟨hdone, hop, -⟩ := legal_append.mp hl
  have hlen := length_applyOps_le done []
  simp only [List.length_nil, Nat.zero_add, List.length_append, List.length_cons] at hlen hf
  refine wp_mono (runFromInit_spec hs hdone (by omega)) ?_
  rintro _ m' ⟨h, hm'⟩
  exact ⟨h, hop.mono hm', by omega⟩

/-- The deletion that leaves a stale link is the only one that can. -/
theorem Op.noStaleLink_iff (h : Holds m s es) (hno : NoStaleLink m s) (hop : op.Enabled s m es)
    (hf : 2 * es.length + 1 < fuel) :
    wp (op.run fuel) (fun _ m' => NoStaleLink m' s ↔ ¬op.Orphans m s) m := by
  obtain ⟨top, h⟩ := holds_iff.mp h
  refine wp_mono (op.run_specAt h hop hf) ?_
  rintro _ m' ⟨⟨top', h', hiff⟩, -⟩
  exact h'.noStaleLink_iff.trans (hiff (h.noStaleLink_iff.mp hno))

/-- **Links to removed nodes.** After each operation of a run from `rbtree_init`
no link leads to a node that is not linked, and the root has no parent, if and
only if no operation of the run deletes the root from above its only child. -/
theorem no_stale_link_iff (hs : (m.node s).isSome) (hl : Legal s m ops [])
    (hf : 2 * ops.length < fuel) :
    (∀ done rest, ops = done ++ rest →
      wp (runFromInit fuel s done) (fun _ m' => NoStaleLink m' s) m) ↔
    ∀ done op rest, ops = done ++ op :: rest →
      wp (runFromInit fuel s done) (fun _ m' => ¬op.Orphans m' s) m := by
  constructor
  · rintro h done op rest rfl
    have hafter := wp_runFromInit_snoc.mp (h (done ++ [op]) rest (by simp))
    have hbefore := wp_and (runFromInit_next hs hl hf) (h done (op :: rest) rfl)
    refine wp_mono (wp_and hbefore hafter) ?_
    rintro _ m' ⟨⟨⟨hm', hop, hfuel⟩, hno⟩, hafter⟩
    refine of_wp (wp_mono (wp_and (op.noStaleLink_iff hm' hno hop hfuel) hafter) ?_)
    rintro _ m'' ⟨hiff, hno'⟩
    exact hiff.mp hno'
  · intro h done
    induction done using List.reverseRecOn with
    | nil =>
        rintro rest rfl
        refine wp_mono (runFromInit_spec hs (legal_append.mp hl).1 (Nat.lt_of_le_of_lt ?_ hf)) ?_
        · exact Nat.zero_le _
        · rintro _ m' ⟨hm', -⟩
          obtain ⟨top, hm'⟩ := holds_iff.mp hm'
          exact hm'.noStaleLink_iff.mpr (Or.inl rfl)
    | append_singleton done op ih =>
        rintro rest rfl
        rw [List.append_assoc, List.singleton_append] at hl hf h ih
        have hbefore := wp_and (runFromInit_next hs hl hf) (ih (op :: rest) rfl)
        refine wp_runFromInit_snoc.mpr (wp_mono (wp_and hbefore (h done op rest rfl)) ?_)
        rintro _ m' ⟨⟨⟨hm', hop, hfuel⟩, hno⟩, horphan⟩
        refine wp_mono (op.noStaleLink_iff hm' hno hop hfuel) ?_
        rintro _ m'' hiff
        exact hiff.mpr horphan

theorem no_stale_link_iff_three :
    (∀ done rest, [Op.insert 1 5, .insert 2 5, .delete 2] = done ++ rest →
      wp (runFromInit 9 0 done) (fun _ m' => NoStaleLink m' 0) blankMem) ↔
    ∀ done op rest, [Op.insert 1 5, .insert 2 5, .delete 2] = done ++ op :: rest →
      wp (runFromInit 9 0 done) (fun _ m' => ¬op.Orphans m' 0) blankMem :=
  no_stale_link_iff rfl (by simp [Legal, Op.Enabled, Op.apply, insertEntry, blankMem]) (by decide)

/-- A root is deleted from above its right child. -/
theorem not_noStaleLink : ¬∀ (m : Mem Nat) (s : Nat) (ops : List (Op Nat)) (fuel : Nat),
    (m.node s).isSome → Legal s m ops [] → 2 * ops.length < fuel →
      wp (runFromInit fuel s ops) (fun _ m' => NoStaleLink m' s) m := by
  intro h
  have hafter := h blankMem 0 [.insert 1 5, .insert 2 5, .delete 1] 9 rfl
    (by simp [Legal, Op.Enabled, Op.apply, insertEntry, blankMem]) (by decide)
  have hstale := (wp_of_run rfl).mp hafter
  have hparent := hstale.root_parent (y := 2) rfl (by decide)
  exact absurd hparent (by decide)

end

end Bitzer
