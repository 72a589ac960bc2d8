import Bitzer.Rbtree.Sim

/-!
# The nodes at the two ends

`rbtree_min` and `rbtree_max`, and what is had by taking the node at one end off
the tree until there is none: the nodes in the order of their keys.
-/

namespace Bitzer

open Lib

variable {α : Type} [DecidableEq α]

/-! ## The source -/

/-- Follow the links of one side. -/
def nodeEnd (d : Side) : Nat → Ptr α → Prog (Mem α) (Ptr α)
  | 0, _ => fun _ => none
  | fuel + 1, node => do
      if (← child d node) ≠ (← sentinel) then
        nodeEnd d fuel (← child d node)
      else
        return node

theorem rbtreeNodeMin_eq (fuel : Nat) (node : Ptr α) :
    rbtreeNodeMin fuel node = nodeEnd .left fuel node := by
  induction fuel generalizing node with
  | zero => rfl
  | succ fuel ih =>
      unfold rbtreeNodeMin nodeEnd
      simp only [ih]

/-- `rbtree_node_max`. -/
def rbtreeNodeMax : Nat → Ptr α → Prog (Mem α) (Ptr α) := nodeEnd .right

/-- `rbtree_min`. -/
def rbtreeMin (fuel : Nat) : Prog (Mem α) (Ptr α) := do
  let node ← root
  if node = (← sentinel) then
    return .null
  else
    rbtreeNodeMin fuel node

/-- `rbtree_max`. -/
def rbtreeMax (fuel : Nat) : Prog (Mem α) (Ptr α) := do
  let node ← root
  if node = (← sentinel) then
    return .null
  else
    rbtreeNodeMax fuel node

/-- The two by their side. -/
def treeEnd : Side → Nat → Prog (Mem α) (Ptr α)
  | .left => rbtreeMin
  | .right => rbtreeMax

/-- Take the node at one end off the tree, up to `n - 1` times. -/
def drain (d : Side) (fuel : Nat) : Nat → Prog (Mem α) (List α)
  | 0 => fun _ => none
  | n + 1 => do
      match ← treeEnd d fuel with
      | .null => return []
      | .ref x =>
          rbtreeDelete fuel (.ref x)
          return x :: (← drain d fuel n)

/-! ## The ends of a list -/

/-- The nodes of a list, from one of its ends on. -/
def fromEnd {β : Type} : Side → List β → List β
  | .left, xs => xs
  | .right, xs => xs.reverse

/-- The pointer to the first node of a list. -/
def firstPtr : List α → Ptr α
  | [] => .null
  | x :: _ => .ref x

section
variable {m : Mem α} {κ : α → UInt64} {s : α} {top : Ptr α} {p : CPath α} {t : CTree α}
  {es : List (α × UInt64)} {ops : List (Op α)} {d : Side} {fuel n : Nat}

omit [DecidableEq α] in
theorem fromEnd_join {c : Color} {a b : CTree α} {x : α} :
    fromEnd d (CTree.join d c a x b).inorder = fromEnd d a.inorder ++ x :: fromEnd d b.inorder := by
  cases d with
  | left => rfl
  | right => simp [fromEnd, CTree.join]

omit [DecidableEq α] in
@[simp] theorem fromEnd_eq_nil {β : Type} {xs : List β} : fromEnd d xs = [] ↔ xs = [] := by
  cases d <;> simp [fromEnd]

omit [DecidableEq α] in
theorem mem_fromEnd {β : Type} {xs : List β} {x : β} : x ∈ fromEnd d xs ↔ x ∈ xs := by
  cases d <;> simp [fromEnd]

/-- From a subtree the loop comes to the end of it. -/
theorem nodeEnd_run (h : Rep m κ s top p t) (ht : t ≠ .nil) (hf : t.inorder.length < fuel) :
    (nodeEnd d fuel (ptr s t)).run m = some (firstPtr (fromEnd d t.inorder), m) := by
  induction fuel generalizing p t with
  | zero => omega
  | succ fuel ih =>
      obtain ⟨c, a, x, b, rfl⟩ := CTree.exists_join d ht
      have hx : (child d (.ref x)).run m = some (ptr s a, m) := h.child_run
      have hsa : s ∉ a.inorder := by
        have hs := (List.nodup_cons.mp h.nodup).1
        simp only [List.mem_append, CTree.mem_inorder_join, not_or] at hs
        exact hs.2.1
      have hlen : a.inorder.length < fuel := by
        have := (CTree.perm_inorder_join d c a x b).length_eq
        simp only [List.length_cons, List.length_append] at this
        omega
      unfold nodeEnd
      rw [fromEnd_join]
      simp only [ptr_join, StateT.run_bind, hx, h.sentinel_run, Option.bind_eq_bind,
        Option.bind_some]
      by_cases ha : a = .nil
      · subst ha
        rw [if_neg (by simp)]
        cases d <;> rfl
      · rw [if_pos (by rwa [ne_eq, ptr_eq_sentinel hsa])]
        simp only [StateT.run_bind, hx, Option.bind_eq_bind, Option.bind_some]
        have hrun := ih (p := ⟨d, c, x, b⟩ :: p) (Rep.up.mpr h) ha hlen
        rw [hrun]
        have hne : fromEnd d a.inorder ≠ [] := by
          rw [ne_eq, fromEnd_eq_nil]
          cases a with
          | nil => exact absurd rfl ha
          | node c l y r => simp
        obtain ⟨y, ys, hys⟩ := List.exists_cons_of_ne_nil hne
        rw [hys]
        rfl

/-- `rbtree_min` and `rbtree_max` read the entry at their end. -/
theorem treeEnd_run (h : Holds m s es) (hf : es.length < fuel) :
    (treeEnd d fuel).run m = some (firstPtr (fromEnd d (es.map Prod.fst)), m) := by
  obtain ⟨κ, top, t, hrep, -, rfl, -⟩ := h
  have hend : (treeEnd d fuel).run m = (do
      let node ← root
      if node = (← sentinel) then return .null else nodeEnd d fuel node : Prog _ _).run m := by
    cases d with
    | left =>
        unfold treeEnd rbtreeMin
        simp only [rbtreeNodeMin_eq]
    | right => rfl
  have hkeys : (t.inorder.map fun y => (y, κ y)).map Prod.fst = t.inorder := by
    simp [Function.comp_def]
  have hs : s ∉ t.inorder := fun hmem => (List.nodup_cons.mp hrep.nodup).1 (by simpa using hmem)
  rw [hend, hkeys]
  simp only [StateT.run_bind, hrep.root_run, hrep.sentinel_run, Option.bind_eq_bind,
    Option.bind_some, fill_nil]
  by_cases ht : t = .nil
  · subst ht
    rw [ptr_nil, if_pos rfl]
    cases d <;> rfl
  · rw [if_neg (by rwa [ptr_eq_sentinel hs])]
    exact nodeEnd_run hrep ht (by simpa using hf)

/-- Without the node at its end, a list starts with the next one. -/
theorem fromEnd_erase {xs ys : List α} {x : α} (hn : xs.Nodup) (h : fromEnd d xs = x :: ys) :
    fromEnd d (xs.erase x) = ys := by
  cases d with
  | left =>
      obtain rfl : xs = x :: ys := h
      exact List.erase_cons_head ..
  | right =>
      obtain rfl : xs = ys.reverse ++ [x] := by
        rw [← List.reverse_reverse xs, show xs.reverse = x :: ys from h, List.reverse_cons]
      have hx : x ∉ ys.reverse := fun hmem =>
        (List.nodup_append.mp hn).2.2 x hmem x (List.mem_singleton_self x) rfl
      rw [List.erase_append_right _ hx, List.erase_cons_head, List.append_nil]
      exact List.reverse_reverse ys

/-- All nodes come off, from the end on. -/
theorem drain_spec (h : Holds m s es) (hf : 2 * es.length + 1 < fuel) (hn : es.length < n) :
    wp (drain d fuel n) (fun xs m' => xs = fromEnd d (es.map Prod.fst) ∧ Holds m' s []) m := by
  induction n generalizing m es with
  | zero => omega
  | succ n ih =>
      unfold drain
      rw [wp_bind, wp_of_run (treeEnd_run h (by omega))]
      cases hx : fromEnd d (es.map Prod.fst) with
      | nil =>
          obtain rfl : es = [] := List.map_eq_nil_iff.mp (fromEnd_eq_nil.mp hx)
          exact (wp_pure ..).mpr ⟨rfl, h⟩
      | cons x ys =>
          have hnodup := (List.nodup_cons.mp h.nodup).2
          have hmem : x ∈ es.map Prod.fst := mem_fromEnd.mp (hx ▸ List.mem_cons_self)
          have hfst := deleteEntry_fst (x := x) hnodup
          have hlen : (deleteEntry x es).length + 1 = es.length := by
            have hl := congrArg List.length hfst
            have hpos := List.length_pos_of_mem hmem
            rw [List.length_map, List.length_erase_of_mem hmem] at hl
            rw [List.length_map] at hl hpos
            omega
          simp only [firstPtr]
          rw [wp_bind]
          refine wp_mono (h.delete hmem hf) ?_
          rintro _ m' ⟨h', -⟩
          rw [wp_bind]
          refine wp_mono (ih h' (by omega) (by omega)) ?_
          rintro _ m'' ⟨rfl, h''⟩
          refine (wp_pure ..).mpr ⟨?_, h''⟩
          rw [hfst, fromEnd_erase hnodup hx]

/-! ## Equal keys -/

/-- The nodes with key `k` in the order in which they came, behind those in `q`. -/
def arrivals (k : UInt64) : List (Op α) → List α → List α
  | [], q => q
  | .insert x k' :: ops, q => arrivals k ops (if k' = k then q ++ [x] else q)
  | .delete x :: ops, q => arrivals k ops (q.filter fun y => !decide (y = x))

/-- The nodes of the entries with key `k`. -/
def withKey (k : UInt64) (es : List (α × UInt64)) : List α :=
  (es.filter fun e => decide (e.2 = k)).map Prod.fst

omit [DecidableEq α] in
theorem withKey_insertEntry {x : α} {k k' : UInt64} :
    withKey k (insertEntry x k' es) =
      if k' = k then withKey k es ++ [x] else withKey k es := by
  unfold withKey insertEntry
  have hle : (es.filter fun e => decide (e.2 ≤ k')).filter (fun e => decide (e.2 = k)) =
      if k ≤ k' then es.filter (fun e => decide (e.2 = k)) else [] := by
    rw [List.filter_filter]
    split
    · rename_i hk
      exact List.filter_congr fun e _ => by grind
    · rename_i hk
      exact List.filter_eq_nil_iff.mpr fun e _ => by grind
  have hgt : (es.filter fun e => decide (k' < e.2)).filter (fun e => decide (e.2 = k)) =
      if k ≤ k' then [] else es.filter (fun e => decide (e.2 = k)) := by
    rw [List.filter_filter]
    split
    · rename_i hk
      exact List.filter_eq_nil_iff.mpr fun e _ => by grind
    · rename_i hk
      exact List.filter_congr fun e _ => by grind
  rw [List.filter_append, List.filter_cons, hle, hgt]
  by_cases hk : k' = k
  · subst hk
    simp
  · by_cases hlt : k ≤ k' <;> simp [hk, hlt]

theorem withKey_deleteEntry {x : α} {k : UInt64} :
    withKey k (deleteEntry x es) = (withKey k es).filter fun y => !decide (y = x) := by
  unfold withKey deleteEntry
  rw [List.filter_map, List.filter_filter, List.filter_filter]
  exact congrArg _ (List.filter_congr fun e _ => Bool.and_comm ..)

/-- Under each key the tree is a queue. -/
theorem withKey_applyOps {k : UInt64} :
    withKey k (applyOps ops es) = arrivals k ops (withKey k es) := by
  induction ops generalizing es with
  | nil => rfl
  | cons op ops ih =>
      cases op with
      | insert x k' =>
          rw [applyOps, arrivals, ih]
          exact congrArg _ withKey_insertEntry
      | delete x =>
          rw [applyOps, arrivals, ih]
          exact congrArg _ withKey_deleteEntry

/-- **A queue by keys.** After any run of operations `rbtree_min` and `rbtree_max`
return the first and the last linked node, or `NULL` where none is linked. Taking
the node at one end off until there is none gives the nodes in the order of their
keys, those with one key in the order in which they came, and leaves the empty
tree. -/
theorem tree_is_queue (hs : (m.node s).isSome) (hl : Legal s m ops [])
    (hf : 2 * ops.length + 1 < fuel) :
    wp (runFromInit fuel s ops) (fun _ m' => ∃ xs, InOrder m' s xs ∧
      xs.Pairwise (fun x y => keyAt m' x ≤ keyAt m' y) ∧
      (∀ k, (xs.filter fun x => decide (keyAt m' x = k)) = arrivals k ops []) ∧
      (∀ n, xs.length < n → (rbtreeMin n).run m' = some (firstPtr xs, m') ∧
        (rbtreeMax n).run m' = some (firstPtr xs.reverse, m')) ∧
      wp (drain .left fuel fuel) (fun ys m'' => ys = xs ∧ InOrder m'' s []) m' ∧
      wp (drain .right fuel fuel) (fun ys m'' => ys = xs.reverse ∧ InOrder m'' s []) m') m := by
  refine wp_mono (runFromInit_spec hs hl (by omega)) ?_
  rintro _ m' ⟨h, -⟩
  have hlen := length_applyOps_le ops []
  simp only [List.length_nil, Nat.zero_add] at hlen
  have hdrain : ∀ d, wp (drain d fuel fuel) (fun ys m'' =>
      ys = fromEnd d ((applyOps ops []).map Prod.fst) ∧ InOrder m'' s []) m' := fun d =>
    wp_mono (drain_spec h (by omega) (by omega)) fun _ _ ⟨hys, h'⟩ => ⟨hys, h'.inOrder⟩
  refine ⟨_, h.inOrder, ?_, fun k => ?_, fun n hn => ?_, hdrain .left, hdrain .right⟩
  · rw [List.pairwise_map]
    refine h.sorted.imp_of_mem fun {d e} hd he hle => ?_
    rwa [h.keyAt_eq hd, h.keyAt_eq he]
  · rw [← h.map_filter fun k' => decide (k' = k)]
    exact withKey_applyOps
  · rw [List.length_map] at hn
    exact ⟨treeEnd_run (d := .left) h hn, treeEnd_run (d := .right) h hn⟩

/-- Two nodes with one key, and one that is deleted before them. -/
theorem tree_is_queue_three :
    wp (runFromInit 11 0 [.insert 1 5, .insert 2 7, .insert 3 5, .delete 2]) (fun _ m' =>
      ∃ xs, InOrder m' 0 xs ∧ xs.Pairwise (fun x y => keyAt m' x ≤ keyAt m' y) ∧
        (∀ k, (xs.filter fun x => decide (keyAt m' x = k)) =
          arrivals k [.insert 1 5, .insert 2 7, .insert 3 5, .delete 2] []) ∧
        (∀ n, xs.length < n → (rbtreeMin n).run m' = some (firstPtr xs, m') ∧
          (rbtreeMax n).run m' = some (firstPtr xs.reverse, m')) ∧
        wp (drain .left 11 11) (fun ys m'' => ys = xs ∧ InOrder m'' 0 []) m' ∧
        wp (drain .right 11 11) (fun ys m'' => ys = xs.reverse ∧ InOrder m'' 0 []) m') blankMem :=
  tree_is_queue rfl (by simp [Legal, Op.Enabled, Op.apply, insertEntry, blankMem])
    (by decide)

end

end Bitzer
