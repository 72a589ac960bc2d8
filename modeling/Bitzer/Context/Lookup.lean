import Bitzer.Context.Step
import Bitzer.Rbtree.Run

/-!
# Lookup by pid

`context_find_task` finds the node with a given key if the tree has one. Its
loop stops at the first node on its way whose key is the one it looks for, and
the order of the keys tells it which way to go; the balance of the tree bounds
the way.
-/

namespace Bitzer

open Lib

variable {τ : Type} [DecidableEq τ]

/-- The loop of `context_find_task`, with the nodes that it visits. -/
def contextFindVisits (k : UInt64) :
    Nat → Ptr (NodeAddr τ) → Prog (Mem (NodeAddr τ)) (Option τ × List (Ptr (NodeAddr τ)))
  | 0, _ => fun _ => none
  | fuel + 1, node => do
      if node ≠ (← sentinel) then
        if k < (← key node) then
          let (task, visited) ← contextFindVisits k fuel (← child .left node)
          return (task, node :: visited)
        else if k > (← key node) then
          let (task, visited) ← contextFindVisits k fuel (← child .right node)
          return (task, node :: visited)
        else
          return (rbtreeEntry node, [node])
      else
        return (none, [])

theorem contextFindTask_eq (k : UInt64) (fuel : Nat) (node : Ptr (NodeAddr τ)) :
    contextFindTask k fuel node = Prod.fst <$> contextFindVisits k fuel node := by
  induction fuel generalizing node with
  | zero => rfl
  | succ fuel ih =>
      unfold contextFindTask contextFindVisits
      simp only [ih, map_eq_pure_bind, bind_assoc]
      refine bind_congr fun s => ?_
      split
      · simp only [bind_assoc]
        refine bind_congr fun j => ?_
        split
        · simp only [bind_assoc, pure_bind]
        · simp only [bind_assoc]
          refine bind_congr fun j => ?_
          split
          · simp only [bind_assoc, pure_bind]
          · rw [pure_bind]
      · rw [pure_bind]

/-- The loop on the tree at a hole. -/
theorem contextFindVisits_run {m : Mem (NodeAddr τ)} {κ : NodeAddr τ → UInt64}
    {top : Ptr (NodeAddr τ)} {p : CPath (NodeAddr τ)} {t : CTree (NodeAddr τ)} {k : UInt64}
    {fuel : Nat} (h : Rep m κ .sentinel top p t)
    (hs : t.inorder.Pairwise fun x y => κ x ≤ κ y) (hf : t.height < fuel) :
    ∃ r vs, (contextFindVisits k fuel (ptr .sentinel t)).run m = some ((r, vs), m) ∧
      vs.length ≤ t.height ∧
      (∀ x, r = some x → .task x ∈ t.inorder ∧ κ (.task x) = k) ∧
      (r = none → ∀ y ∈ t.inorder, κ y ≠ k) := by
  induction fuel generalizing p t with
  | zero => omega
  | succ fuel ih =>
  have hfresh := h.nodup
  unfold contextFindVisits
  cases t with
  | nil =>
      refine ⟨none, [], ?_, Nat.zero_le _, by simp, by simp⟩
      simp [h.sentinel_run]
  | node c l y r =>
      simp only [List.nodup_cons, List.mem_append, CTree.inorder_node, List.mem_cons, not_or]
        at hfresh
      simp only [CTree.height] at hf ⊢
      simp only [CTree.inorder_node, List.pairwise_append, List.pairwise_cons, List.mem_cons] at hs
      obtain ⟨hl, ⟨hyr, hr⟩, hly⟩ := hs
      obtain ⟨x, rfl⟩ : ∃ x, y = .task x := by
        cases y with
        | sentinel => simp at hfresh
        | task x => exact ⟨x, rfl⟩
      have hky : (key (.ref (.task x))).run m = some (κ (.task x), m) :=
        load_run (h.node_eq (d := .left)) (key_cell ..)
      have hcl : (child .left (.ref (.task x))).run m = some (ptr .sentinel l, m) :=
        load_run (h.node_eq (d := .left)) (link_cell ..)
      have hcr : (child .right (.ref (.task x))).run m = some (ptr .sentinel r, m) :=
        load_run (h.node_eq (d := .left)) (link_other_cell .left ..)
      simp only [ptr_node, StateT.run_bind, h.sentinel_run, hky, Option.bind_eq_bind,
        Option.bind_some, ne_eq, Ptr.ref.injEq, reduceCtorEq, not_false_eq_true, if_true]
      by_cases hlt : k < κ (.task x)
      · simp only [hlt, if_true, StateT.run_bind, hcl, Option.bind_eq_bind, Option.bind_some]
        obtain ⟨res, vs, hrun, hlen, hsome, hnone⟩ :=
          ih (p := ⟨.left, c, .task x, r⟩ :: p) (Rep.up.mpr h) hl (by omega)
        refine ⟨res, .ref (.task x) :: vs, by rw [hrun]; rfl, ?_, fun z hz => ?_,
          fun hz v hv => ?_⟩
        · rw [List.length_cons]
          omega
        · obtain ⟨hz₁, hz₂⟩ := hsome z hz
          exact ⟨by simp [hz₁], hz₂⟩
        · rw [CTree.inorder_node, List.mem_append, List.mem_cons] at hv
          rcases hv with hv | rfl | hv
          · exact hnone hz v hv
          · exact (UInt64.ne_of_lt hlt).symm
          · exact (UInt64.ne_of_lt (UInt64.lt_of_lt_of_le hlt (hyr v hv))).symm
      · by_cases hgt : k > κ (.task x)
        · simp only [hlt, hgt, if_true, if_false, StateT.run_bind, hky, hcr, Option.bind_eq_bind,
            Option.bind_some]
          obtain ⟨res, vs, hrun, hlen, hsome, hnone⟩ :=
            ih (p := ⟨.right, c, .task x, l⟩ :: p) (Rep.up.mpr h) hr (by omega)
          refine ⟨res, .ref (.task x) :: vs, by rw [hrun]; rfl, ?_, fun z hz => ?_,
            fun hz v hv => ?_⟩
          · rw [List.length_cons]
            omega
          · obtain ⟨hz₁, hz₂⟩ := hsome z hz
            exact ⟨by simp [hz₁], hz₂⟩
          · rw [CTree.inorder_node, List.mem_append, List.mem_cons] at hv
            rcases hv with hv | rfl | hv
            · exact UInt64.ne_of_lt (UInt64.lt_of_le_of_lt (hly v hv _ (Or.inl rfl)) hgt)
            · exact UInt64.ne_of_lt hgt
            · exact hnone hz v hv
        · have heq : κ (.task x) = k :=
            UInt64.le_antisymm (UInt64.not_lt.mp hlt) (UInt64.not_lt.mp hgt)
          refine ⟨some x, [.ref (.task x)], ?_, Nat.succ_le_succ (Nat.zero_le _), ?_, by simp⟩
          · simp [hlt, hgt, hky, rbtreeEntry]
          · rintro z ⟨⟩
            exact ⟨by simp, heq⟩

/-- The loop on the entries of the tree; `h` is the height of the tree. -/
theorem Holds.visits {m : Mem (NodeAddr τ)} {es : List (NodeAddr τ × UInt64)}
    (hm : Holds m .sentinel es) (k : UInt64) :
    ∃ h, h ≤ es.length ∧ h ≤ 2 * (es.length + 1).log2 ∧ ∀ fuel, h < fuel →
      ∃ r vs, (contextFindVisits k fuel m.tree.root).run m = some ((r, vs), m) ∧
        vs.length ≤ h ∧ (∀ x, r = some x → (.task x, k) ∈ es) ∧ (r = none → ∀ e ∈ es, e.2 ≠ k) := by
  obtain ⟨κ, top, t, hrep, hrb, rfl, hs⟩ := hm
  have hsorted : t.inorder.Pairwise fun x y => κ x ≤ κ y := by
    simpa [List.pairwise_map] using hs
  rw [List.length_map]
  refine ⟨t.height, t.height_le_length, hrb.height_le, fun fuel hf => ?_⟩
  obtain ⟨r, vs, hrun, hlen, hsome, hnone⟩ := contextFindVisits_run (k := k) hrep hsorted hf
  rw [hrep.root_eq]
  refine ⟨r, vs, hrun, hlen, fun x hx => ?_, fun hr e he => ?_⟩
  · obtain ⟨hmem, hk⟩ := hsome x hx
    exact List.mem_map.mpr ⟨_, hmem, by rw [hk]⟩
  · obtain ⟨y, hy, rfl⟩ := List.mem_map.mp he
    exact hnone hr y hy

/-- `context_find_task` on the entries of the tree. -/
theorem Holds.find {m : Mem (NodeAddr τ)} {es : List (NodeAddr τ × UInt64)} {fuel : Nat}
    (h : Holds m .sentinel es) (hf : es.length < fuel) (k : UInt64) :
    ∃ r, (contextFindTask k fuel m.tree.root).run m = some (r, m) ∧
      (∀ x, r = some x → (.task x, k) ∈ es) ∧ (r = none → ∀ e ∈ es, e.2 ≠ k) := by
  obtain ⟨n, hn, -, hvisits⟩ := h.visits k
  obtain ⟨r, vs, hrun, -, hfound⟩ := hvisits fuel (Nat.lt_of_le_of_lt hn hf)
  refine ⟨r, ?_, hfound⟩
  rw [contextFindTask_eq, StateT.run_map, hrun]
  rfl

/-- The lookup in every tree that can be built: it finds a linked node with the
key where there is one, on a way of logarithmic length. -/
theorem find_task_logarithmic {m : Mem (NodeAddr τ)} {ops : List (Op (NodeAddr τ))} {fuel : Nat}
    (hs : (m.node .sentinel).isSome) (hl : Legal .sentinel m ops []) (hf : 2 * ops.length < fuel) :
    wp (runFromInit fuel .sentinel ops) (fun _ m' => ∃ xs, InOrder m' .sentinel xs ∧
      ∀ (pid : Int32) (n : Nat), 2 * (xs.length + 1).log2 < n → ∃ r vs,
        (contextFindVisits (pidKey pid) n m'.tree.root).run m' = some ((r, vs), m') ∧
          (contextFindTask (pidKey pid) n m'.tree.root).run m' = some (r, m') ∧
          (∀ x, r = some x → .task x ∈ xs ∧ keyAt m' (.task x) = pidKey pid) ∧
          (r = none → ∀ y ∈ xs, keyAt m' y ≠ pidKey pid) ∧
          vs.length ≤ 2 * (xs.length + 1).log2) m := by
  refine wp_mono (runFromInit_spec hs hl hf) ?_
  rintro _ m' ⟨h, -⟩
  refine ⟨_, h.inOrder, fun pid n hn => ?_⟩
  rw [List.length_map] at hn ⊢
  obtain ⟨j, -, hj, hvisits⟩ := h.visits (pidKey pid)
  obtain ⟨r, vs, hrun, hlen, hsome, hnone⟩ := hvisits n (Nat.lt_of_le_of_lt hj hn)
  refine ⟨r, vs, hrun, ?_, fun x hx => ?_, fun hr y hy => ?_, Nat.le_trans hlen hj⟩
  · rw [contextFindTask_eq, StateT.run_map, hrun]
    rfl
  · exact ⟨List.mem_map.mpr ⟨_, hsome x hx, rfl⟩, h.keyAt_eq (hsome x hx)⟩
  · obtain ⟨e, he, rfl⟩ := List.mem_map.mp hy
    rw [h.keyAt_eq he]
    exact hnone hr e he

/-- Two tasks with the same key, of which one is left. -/
theorem find_task_logarithmic_two :
    wp (runFromInit 9 .sentinel [.insert (.task 1) 5, .insert (.task 2) 5, .delete (.task 1)])
      (fun _ m' => ∃ xs, InOrder m' .sentinel xs ∧
        ∀ (pid : Int32) (n : Nat), 2 * (xs.length + 1).log2 < n → ∃ r vs,
          (contextFindVisits (pidKey pid) n m'.tree.root).run m' = some ((r, vs), m') ∧
            (contextFindTask (pidKey pid) n m'.tree.root).run m' = some (r, m') ∧
            (∀ x, r = some x → .task x ∈ xs ∧ keyAt m' (.task x) = pidKey pid) ∧
            (r = none → ∀ y ∈ xs, keyAt m' y ≠ pidKey pid) ∧
            vs.length ≤ 2 * (xs.length + 1).log2)
      (⟨fun _ => some {}, ⟨.null, .null⟩⟩ : Mem (NodeAddr Nat)) :=
  find_task_logarithmic rfl (by simp [Legal, Op.Enabled, Op.apply, insertEntry]) (by decide)

end Bitzer
