import Mathlib.Data.Fintype.Basic
import Bitzer.Lists.Basic

/-!
# Runs of list operations

What the operations of `list.h` do to the lists that a memory holds. `Holds`
says that the links are those of the lists in a table, each under its head; an
operation changes the table as `ListOp.apply` says, and no node that is neither
on a list nor its argument.
-/

namespace Bitzer

open Lib

variable {α : Type}

/-- Lists by their heads. -/
abbrev Lists (α : Type) := α → Option (List α)

/-- The memory holds the lists. -/
def ListMem.Holds (m : ListMem α) (L : Lists α) : Prop := Rings m.links L

inductive ListOp (α : Type) where
  | init (h : α)
  | add (new head : α)
  | addTail (new head : α)
  | del (entry : α)
  | delInit (entry : α)
  | splice (list head : α)

/-- The nodes that the operation is called on. -/
def ListOp.args : ListOp α → List α
  | .init h => [h]
  | .add new head => [new, head]
  | .addTail new head => [new, head]
  | .del entry => [entry]
  | .delInit entry => [entry]
  | .splice list head => [list, head]

/-- What the operation asks for; `list.h` checks nothing. `alloc` tells which
nodes are allocated. -/
def ListOp.Enabled (alloc : α → Bool) (L : Lists α) : ListOp α → Prop
  | .init h => alloc h = true ∧ Unlisted L h
  | .add new head => alloc new = true ∧ Unlisted L new ∧ (L head).isSome
  | .addTail new head => alloc new = true ∧ Unlisted L new ∧ (L head).isSome
  | .del entry => ∃ h xs, L h = some xs ∧ entry ∈ xs
  | .delInit entry => ∃ h xs, L h = some xs ∧ entry ∈ xs
  | .splice list head => list ≠ head ∧ (L list).isSome ∧ (L head).isSome

/-- The memory after a change of links at the nodes `as`. -/
structure ListMem.Changed (m m' : ListMem α) (k : Links α) (as : List α) : Prop where
  links : m'.links = k
  alloc : ∀ a, (m' a).isSome = (m a).isSome
  frame : ∀ a, a ∉ as → m' a = m a

section
variable {m m' m'' : ListMem α} {k k' : Links α} {as bs : List α} {p q : α}

theorem ListMem.Changed.trans (h : m.Changed m' k as) (h' : m'.Changed m'' k' bs) :
    m.Changed m'' k' (as ++ bs) where
  links := h'.links
  alloc a := (h'.alloc a).trans (h.alloc a)
  frame a ha := by
    simp only [List.mem_append, not_or] at ha
    exact (h'.frame a ha.2).trans (h.frame a ha.1)

theorem ListMem.Changed.mono (h : m.Changed m' k as) (hs : as ⊆ bs) : m.Changed m' k bs where
  links := h.links
  alloc := h.alloc
  frame a ha := h.frame a fun hm => ha (hs hm)

/-- A node with a link is allocated. -/
theorem ListMem.isSome_of_next (h : m.links.next p = some q) : (m p).isSome = true := by
  obtain ⟨n, hn, -⟩ := Option.bind_eq_some_iff.mp h
  rw [hn]
  rfl

theorem ListMem.isSome_of_prev (h : m.links.prev p = some q) : (m p).isSome = true := by
  obtain ⟨n, hn, -⟩ := Option.bind_eq_some_iff.mp h
  rw [hn]
  rfl

theorem wp_listNext {Q : α → ListMem α → Prop} (h : m.links.next p = some q) :
    wp (listNext p) Q m ↔ Q q m := wp_of_run (by simp [listNext, StateT.run, h])

theorem wp_listPrev {Q : α → ListMem α → Prop} (h : m.links.prev p = some q) :
    wp (listPrev p) Q m ↔ Q q m := wp_of_run (by simp [listPrev, StateT.run, h])

end

variable [DecidableEq α]

def ListOp.run : ListOp α → Prog (ListMem α) Unit
  | .init h => initListHead h
  | .add new head => listAdd new head
  | .addTail new head => listAddTail new head
  | .del entry => listDel entry
  | .delInit entry => listDelInit entry
  | .splice list head => listSplice list head

/-- The lists without the entry. -/
def Lists.erase (L : Lists α) (entry : α) : Lists α := fun h => (L h).map (·.erase entry)

/-- What an operation does to the lists. -/
def ListOp.apply : ListOp α → Lists α → Lists α
  | .init h, L => Function.update L h (some [])
  | .add new head, L => Function.update L head ((L head).map (new :: ·))
  | .addTail new head, L => Function.update L head ((L head).map (· ++ [new]))
  | .del entry, L => L.erase entry
  | .delInit entry, L => Function.update (L.erase entry) entry (some [])
  | .splice list head, L =>
      match L list with
      | none => L
      | some [] => L
      | some ys => Function.update (Function.update L list none) head ((L head).map (ys ++ ·))

/-! ## Single stores -/

section
variable {m m' : ListMem α} {p q x y : α}

theorem ListMem.changed_setNext (hp : (m p).isSome = true) :
    m.Changed (m.setNext p q) { m.links with next := Function.update m.links.next p (some q) }
      [p] where
  links := by
    obtain ⟨n, hn⟩ := Option.isSome_iff_exists.mp hp
    unfold ListMem.links ListMem.setNext
    congr 1
    · funext a
      by_cases ha : a = p
      · subst ha
        simp [hn]
      · simp [ha]
    · funext a
      by_cases ha : a = p
      · subst ha
        simp [hn]
      · simp [ha]
  alloc a := by
    unfold ListMem.setNext
    by_cases ha : a = p
    · subst ha
      simp
    · simp [ha]
  frame a ha := Function.update_of_ne (by simpa using ha) _ _

theorem ListMem.changed_setPrev (hp : (m p).isSome = true) :
    m.Changed (m.setPrev p q) { m.links with prev := Function.update m.links.prev p (some q) }
      [p] where
  links := by
    obtain ⟨n, hn⟩ := Option.isSome_iff_exists.mp hp
    unfold ListMem.links ListMem.setPrev
    congr 1
    · funext a
      by_cases ha : a = p
      · subst ha
        simp [hn]
      · simp [ha]
    · funext a
      by_cases ha : a = p
      · subst ha
        simp [hn]
      · simp [ha]
  alloc a := by
    unfold ListMem.setPrev
    by_cases ha : a = p
    · subst ha
      simp
    · simp [ha]
  frame a ha := Function.update_of_ne (by simpa using ha) _ _

theorem wp_setListNext {Q : Unit → ListMem α → Prop} (hp : (m p).isSome = true) :
    wp (setListNext p q) Q m ↔ Q () (m.setNext p q) :=
  wp_of_run (by simp [setListNext, StateT.run, hp])

theorem wp_setListPrev {Q : Unit → ListMem α → Prop} (hp : (m p).isSome = true) :
    wp (setListPrev p q) Q m ↔ Q () (m.setPrev p q) :=
  wp_of_run (by simp [setListPrev, StateT.run, hp])

/-- Both links between two nodes, the link back first. -/
theorem listDelBetween_spec (hx : (m x).isSome = true) (hy : (m y).isSome = true) :
    wp (listDelBetween x y) (fun _ m' => m.Changed m' (m.links.join x y) [x, y]) m := by
  have h₁ := ListMem.changed_setPrev (q := x) hy
  have hx' : (m.setPrev y x x).isSome = true := (h₁.alloc x).trans hx
  have h₂ := ListMem.changed_setNext (q := y) hx'
  rw [h₁.links] at h₂
  unfold listDelBetween
  rw [wp_bind, wp_setListPrev hy, wp_setListNext hx']
  exact (h₁.trans h₂).mono (by simp)

/-- The same with the link forward first. -/
theorem joinForward_spec (hx : (m x).isSome = true) (hy : (m y).isSome = true) :
    wp (do setListNext x y; setListPrev y x) (fun _ m' => m.Changed m' (m.links.join x y) [x, y])
      m := by
  have h₁ := ListMem.changed_setNext (q := y) hx
  have hy' : (m.setNext x y y).isSome = true := (h₁.alloc y).trans hy
  have h₂ := ListMem.changed_setPrev (q := x) hy'
  rw [h₁.links] at h₂
  rw [wp_bind, wp_setListNext hx, wp_setListPrev hy']
  exact (h₁.trans h₂).mono (by simp)

theorem initListHead_spec (hx : (m x).isSome = true) :
    wp (initListHead x) (fun _ m' => m.Changed m' (m.links.join x x) [x]) m :=
  wp_mono (joinForward_spec hx hx) fun _ _ h => h.mono (by simp)

theorem listAddBetween_spec {new prev next : α} (hnew : (m new).isSome = true)
    (hprev : (m prev).isSome = true) (hnext : (m next).isSome = true) :
    wp (listAddBetween new prev next) (fun _ m' => m.Changed m'
      ((m.links.join new next).join prev new) [new, next, prev]) m := by
  have hsplit : listAddBetween new prev next =
      listDelBetween new next >>= fun _ => listDelBetween prev new := by
    simp [listAddBetween, listDelBetween]
  rw [hsplit, wp_bind]
  refine wp_mono (listDelBetween_spec hnew hnext) fun _ m₁ h₁ => ?_
  refine wp_mono (listDelBetween_spec ((h₁.alloc _).trans hprev) ((h₁.alloc _).trans hnew))
    fun _ m₂ h₂ => ?_
  rw [h₁.links] at h₂
  exact (h₁.trans h₂).mono (by simp)

end

/-! ## Operations on lists -/

section
variable {m m' : ListMem α} {L L' : Lists α} {h x p n : α} {xs ys l₁ l₂ : List α}

omit [DecidableEq α] in
/-- The links of a list where it is split. -/
theorem ListMem.Holds.joined (l₁ l₂ : List α) (hm : m.Holds L) (hL : L h = some (l₁ ++ l₂)) :
    ∃ p n, (h :: l₁).getLast? = some p ∧ (l₂ ++ [h]).head? = some n ∧ m.links.Joined p n ∧
      (m p).isSome = true ∧ (m n).isSome = true := by
  obtain ⟨p, n, hp, hn, hj⟩ := (hm.ring h _ hL).joined l₁ l₂
  exact ⟨p, n, hp, hn, hj, isSome_of_next hj.1, isSome_of_prev hj.2⟩

/-- What is left after an operation that changes the lists to `L'`. -/
structure ListOp.Leaves (op : ListOp α) (m : ListMem α) (L : Lists α) (m' : ListMem α)
    (L' : Lists α) : Prop where
  holds : m'.Holds L'
  alloc : ∀ a, (m' a).isSome = (m a).isSome
  frame : ∀ a, Unlisted L a → a ∉ op.args → m' a = m a

omit [DecidableEq α] in
/-- The links of the changed memory are those of the new lists, and the change was
at listed nodes and arguments. -/
theorem ListMem.Changed.leaves {op : ListOp α} {k : Links α} {as : List α}
    (hc : m.Changed m' k as) (hk : Rings k L')
    (has : ∀ a ∈ as, a ∈ op.args ∨ ∃ h xs, L h = some xs ∧ a ∈ h :: xs) :
    op.Leaves m L m' L' where
  holds := show Rings m'.links L' from hc.links.symm ▸ hk
  alloc := hc.alloc
  frame a hu ha := by
    refine hc.frame a fun hm => ?_
    rcases has a hm with harg | ⟨h, xs, hL, hmem⟩
    · exact ha harg
    · exact hu h xs hL hmem

/-- An addition between two parts of a list. -/
theorem listAdd_leaves (op : ListOp α) (l₁ l₂ : List α) (hm : m.Holds L)
    (hL : L h = some (l₁ ++ l₂))
    (hx : Unlisted L x) (hp : (h :: l₁).getLast? = some p) (hn : (l₂ ++ [h]).head? = some n)
    (hop : x ∈ op.args) (hc : m.Changed m' ((m.links.join x n).join p x) [x, n, p]) :
    op.Leaves m L m' (Function.update L h (some (l₁ ++ x :: l₂))) := by
  have hpmem : p ∈ h :: (l₁ ++ l₂) := by
    have := List.mem_of_getLast? hp
    simp only [List.mem_cons, List.mem_append] at this ⊢
    tauto
  have hnmem : n ∈ h :: (l₁ ++ l₂) := by
    have := List.mem_of_head? hn
    simp only [List.mem_cons, List.mem_append] at this ⊢
    tauto
  have hpx : p ≠ x := fun heq => hx h _ hL (heq ▸ hpmem)
  have hxn : x ≠ n := fun heq => hx h _ hL (heq ▸ hnmem)
  rw [Links.join_comm (Ne.symm hpx) (Ne.symm hxn)] at hc
  refine hc.leaves (hm.insert hL hx hp hn) fun a ha => ?_
  simp only [List.mem_cons, List.not_mem_nil, or_false] at ha
  rcases ha with rfl | rfl | rfl
  · exact Or.inl hop
  · exact Or.inr ⟨h, _, hL, hnmem⟩
  · exact Or.inr ⟨h, _, hL, hpmem⟩

theorem Lists.erase_eq (hm : m.Holds L) (hL : L h = some (l₁ ++ x :: l₂)) :
    L.erase x = Function.update L h (some (l₁ ++ l₂)) := by
  have hd := (List.nodup_cons.mp (hm.nodup h _ hL)).2
  funext a
  unfold Lists.erase
  by_cases ha : a = h
  · subst ha
    rw [Function.update_self, hL, Option.map_some,
      List.erase_append_right _ (fun hmem => (List.disjoint_of_nodup_append hd hmem (by simp))),
      List.erase_cons_head]
  · rw [Function.update_of_ne ha]
    cases hLa : L a with
    | none => rfl
    | some ys =>
        have hnot : x ∉ a :: ys := hm.not_mem hL ha hLa (by simp)
        rw [Option.map_some, List.erase_of_not_mem fun hmem => hnot (List.mem_cons_of_mem _ hmem)]

/-- An entry of one list only. -/
theorem Lists.unlisted_erase (hm : m.Holds L) (hL : L h = some xs) (hx : x ∈ xs) :
    Unlisted (L.erase x) x := by
  intro a ys ha
  obtain ⟨zs, hLa, rfl⟩ := Option.map_eq_some_iff.mp ha
  have hd := List.nodup_cons.mp (hm.nodup a zs hLa)
  refine List.not_mem_cons_of_ne_of_not_mem ?_ hd.2.not_mem_erase
  rintro rfl
  by_cases hah : x = h
  · subst hah
    rw [hLa] at hL
    cases hL
    exact hd.1 hx
  · exact hm.not_mem hL hah hLa (List.mem_cons_of_mem _ hx) List.mem_cons_self

/-- An entry between its neighbours. -/
theorem listDel_spec (hm : m.Holds L) (hL : L h = some xs) (hx : x ∈ xs) :
    wp (do listDelBetween (← listPrev x) (← listNext x))
      (fun _ m' => (ListOp.del x).Leaves m L m' (L.erase x)) m := by
  obtain ⟨l₁, l₂, rfl⟩ := List.append_of_mem hx
  obtain ⟨p, x', hp, hx', hpj, hpm, -⟩ := hm.joined l₁ (x :: l₂) hL
  rw [List.cons_append, List.head?_cons, Option.some.injEq] at hx'
  subst hx'
  obtain ⟨x', n, hx', hn, hnj, -, hnm⟩ := hm.joined (l₁ ++ [x]) l₂ (by simpa using hL)
  rw [← List.cons_append, List.getLast?_concat, Option.some.injEq] at hx'
  subst hx'
  rw [wp_bind, wp_listPrev hpj.2, wp_bind, wp_listNext hnj.1]
  refine wp_mono (listDelBetween_spec hpm hnm) fun _ m' hc => ?_
  rw [Lists.erase_eq hm hL]
  refine hc.leaves (hm.remove hL hp hn) fun a ha => Or.inr ⟨h, _, hL, ?_⟩
  have hpmem := List.mem_of_getLast? hp
  have hnmem := List.mem_of_head? hn
  simp only [List.mem_cons, List.mem_append, List.not_mem_nil, or_false] at ha hpmem hnmem ⊢
  rcases ha with rfl | rfl
  · tauto
  · tauto

theorem listDelInit_spec (hm : m.Holds L) (hL : L h = some xs) (hx : x ∈ xs) :
    wp (listDelInit x) (fun _ m' => (ListOp.delInit x).Leaves m L m'
      (Function.update (L.erase x) x (some []))) m := by
  have hsplit : listDelInit x = (do
      listDelBetween (← listPrev x) (← listNext x)) >>= fun _ => initListHead x := by
    simp [listDelInit]
  have hxm : (m x).isSome = true := by
    obtain ⟨l₁, l₂, rfl⟩ := List.append_of_mem hx
    obtain ⟨_, x', -, hx', -, -, halloc⟩ := hm.joined l₁ (x :: l₂) hL
    rw [List.cons_append, List.head?_cons, Option.some.injEq] at hx'
    exact hx' ▸ halloc
  rw [hsplit, wp_bind]
  refine wp_mono (listDel_spec hm hL hx) fun _ m₁ h₁ => ?_
  refine wp_mono (initListHead_spec ((h₁.alloc x).trans hxm)) fun _ m₂ h₂ => ?_
  refine ⟨?_, fun a => (h₂.alloc a).trans (h₁.alloc a), fun a hu ha => ?_⟩
  · show Rings m₂.links _
    rw [h₂.links]
    exact Rings.create h₁.holds (Lists.unlisted_erase hm hL hx)
  · exact (h₂.frame a (by simpa [ListOp.args] using ha)).trans (h₁.frame a hu ha)

/-- A list without entries is not spliced; the entries of any other go to the front. -/
theorem listSplice_spec {l : α} (hm : m.Holds L) (hl : L l = some ys) (hL : L h = some xs)
    (hne : l ≠ h) :
    wp (listSplice l h) (fun _ m' => (ListOp.splice l h).Leaves m L m'
      (if ys = [] then L else Function.update (Function.update L l none) h (some (ys ++ xs))))
      m := by
  obtain ⟨l', f, hl', hf, hfj, -, hfm⟩ := hm.joined [] ys hl
  obtain rfl : l = l' := by simpa using hl'
  unfold listSplice
  rw [wp_bind, wp_listNext hfj.1]
  cases ys with
  | nil =>
      obtain rfl : l = f := by simpa using hf
      rw [if_neg (by simp), wp_pure, if_pos rfl]
      exact ⟨hm, fun _ => rfl, fun _ _ _ => rfl⟩
  | cons y ys =>
      obtain rfl : y = f := by simpa using hf
      obtain ⟨e, l', he, hl', hej, hem, -⟩ :=
        hm.joined (y :: ys) [] (hl.trans (by rw [List.append_nil]))
      obtain rfl : l = l' := by simpa using hl'
      obtain ⟨h', n, hh', hn, hnj, hhm, hnm⟩ := hm.joined [] xs hL
      obtain rfl : h = h' := by simpa using hh'
      have hyl : y ≠ l := by
        rintro rfl
        exact (List.nodup_cons.mp (hm.nodup _ _ hl)).1 List.mem_cons_self
      have hsplit : (do
          setListPrev y h
          setListNext h y
          setListNext e n
          setListPrev n e) =
            listDelBetween h y >>= fun _ => (do setListNext e n; setListPrev n e) := by
        simp [listDelBetween]
      rw [if_pos hyl, wp_bind, wp_listPrev hej.2, wp_bind, wp_listNext hnj.1, hsplit, wp_bind,
        if_neg (List.cons_ne_nil y ys)]
      refine wp_mono (listDelBetween_spec hhm hfm) fun _ m₁ h₁ => ?_
      refine wp_mono (joinForward_spec ((h₁.alloc e).trans hem) ((h₁.alloc n).trans hnm))
        fun _ m₂ h₂ => ?_
      rw [h₁.links] at h₂
      have he' : (y :: ys).getLast? = some e := by simpa using he
      refine (h₁.trans h₂).leaves (hm.splice hL hl hne hn rfl he') fun a ha => Or.inr ?_
      have hemem := List.mem_of_getLast? he'
      have hnmem := List.mem_of_head? hn
      simp only [List.mem_append, List.mem_cons, List.not_mem_nil, or_false] at ha hnmem
      rcases ha with (rfl | rfl) | rfl | rfl
      · exact ⟨a, xs, hL, List.mem_cons_self⟩
      · exact ⟨l, _, hl, by simp⟩
      · exact ⟨l, _, hl, List.mem_cons_of_mem _ hemem⟩
      · refine ⟨h, xs, hL, ?_⟩
        simp only [List.mem_cons]
        tauto

end

/-- Where an operation may be called, it returns, and leaves the lists that it
should. -/
theorem ListOp.run_spec {m : ListMem α} {L : Lists α} (op : ListOp α) (hm : m.Holds L)
    (hop : op.Enabled (fun a => (m a).isSome) L) :
    wp op.run (fun _ m' => op.Leaves m L m' (op.apply L)) m := by
  cases op with
  | init h =>
      obtain ⟨halloc, hfree⟩ := hop
      refine wp_mono (initListHead_spec halloc) fun _ m' hc => ?_
      exact hc.leaves (hm.create hfree) fun a ha => Or.inl ha
  | add new head =>
      obtain ⟨halloc, hfree, hL⟩ := hop
      obtain ⟨xs, hL⟩ := Option.isSome_iff_exists.mp hL
      obtain ⟨p, n, hp, hn, hj, hpm, hnm⟩ := hm.joined [] xs hL
      obtain rfl : head = p := by simpa using hp
      show wp (listAdd new head) _ m
      unfold listAdd
      rw [wp_bind, wp_listNext hj.1]
      refine wp_mono (listAddBetween_spec halloc hpm hnm) fun _ m' hc => ?_
      have := listAdd_leaves (.add new head) [] xs hm hL hfree rfl hn (by simp [args]) hc
      simpa [apply, hL] using this
  | addTail new head =>
      obtain ⟨halloc, hfree, hL⟩ := hop
      obtain ⟨xs, hL⟩ := Option.isSome_iff_exists.mp hL
      obtain ⟨p, n, hp, hn, hj, hpm, hnm⟩ :=
        hm.joined xs [] (hL.trans (by rw [List.append_nil]))
      obtain rfl : head = n := by simpa using hn
      show wp (listAddTail new head) _ m
      unfold listAddTail
      rw [wp_bind, wp_listPrev hj.2]
      refine wp_mono (listAddBetween_spec halloc hpm hnm) fun _ m' hc => ?_
      have := listAdd_leaves (.addTail new head) xs [] hm
        (hL.trans (by rw [List.append_nil])) hfree hp rfl (by simp [args]) hc
      simpa [apply, hL] using this
  | del entry =>
      obtain ⟨h, xs, hL, hmem⟩ := hop
      exact listDel_spec hm hL hmem
  | delInit entry =>
      obtain ⟨h, xs, hL, hmem⟩ := hop
      exact listDelInit_spec hm hL hmem
  | splice list head =>
      obtain ⟨hne, hlist, hhead⟩ := hop
      obtain ⟨ys, hl⟩ := Option.isSome_iff_exists.mp hlist
      obtain ⟨xs, hL⟩ := Option.isSome_iff_exists.mp hhead
      refine wp_mono (listSplice_spec hm hl hL hne) fun _ m' h => ?_
      cases ys with
      | nil => simpa [apply, hl] using h
      | cons y ys => simpa [apply, hl, hL] using h

instance [Fintype α] (L : Lists α) (x : α) : Decidable (Unlisted L x) :=
  decidable_of_iff (∀ h, ∀ xs ∈ L h, x ∉ h :: xs) Iff.rfl

instance [Fintype α] (alloc : α → Bool) (L : Lists α) (op : ListOp α) :
    Decidable (op.Enabled alloc L) :=
  match op with
  | .init _ | .add _ _ | .addTail _ _ | .splice _ _ => inferInstanceAs (Decidable (_ ∧ _))
  | .del entry | .delInit entry =>
      decidable_of_iff (∃ h, ∃ xs ∈ L h, entry ∈ xs) (exists_congr fun _ => exists_congr fun _ =>
        Iff.rfl)

/-! ## Runs -/

/-- A sequence of operations. -/
def ListOp.runAll : List (ListOp α) → Prog (ListMem α) Unit
  | [] => pure ()
  | op :: ops => do
      op.run
      runAll ops

def ListOp.applyAll (ops : List (ListOp α)) (L : Lists α) : Lists α :=
  ops.foldl (fun L op => op.apply L) L

/-- Every operation may be called where its turn comes. -/
def ListOp.EnabledAll (alloc : α → Bool) : Lists α → List (ListOp α) → Prop
  | _, [] => True
  | L, op :: ops => op.Enabled alloc L ∧ EnabledAll alloc (op.apply L) ops

instance [Fintype α] (alloc : α → Bool) (L : Lists α) (ops : List (ListOp α)) :
    Decidable (ListOp.EnabledAll alloc L ops) := by
  induction ops generalizing L with
  | nil => exact isTrue trivial
  | cons op ops ih => exact @instDecidableAnd _ _ _ (ih _)

section
variable {m m' : ListMem α} {L : Lists α} {h a : α} {xs : List α} {op : ListOp α}
  {ops : List (ListOp α)}

theorem unlisted_update {o : Option (List α)} (hu : Unlisted L a)
    (ha : ∀ xs, o = some xs → a ∉ h :: xs) : Unlisted (Function.update L h o) a := by
  intro b ys hb
  by_cases hbh : b = h
  · subst hbh
    rw [Function.update_self] at hb
    exact ha ys hb
  · rw [Function.update_of_ne hbh] at hb
    exact hu b ys hb

theorem Lists.unlisted_erase_of {x : α} (hu : Unlisted L a) : Unlisted (L.erase x) a := by
  intro b ys hb
  obtain ⟨zs, hLb, rfl⟩ := Option.map_eq_some_iff.mp hb
  have := hu b zs hLb
  simp only [List.mem_cons, not_or] at this ⊢
  exact ⟨this.1, fun hm => this.2 (List.mem_of_mem_erase hm)⟩

/-- Only arguments come onto a list. -/
theorem ListOp.unlisted_apply (hu : Unlisted L a) (ha : a ∉ op.args) :
    Unlisted (op.apply L) a := by
  cases op with
  | init h =>
      refine unlisted_update hu fun xs hxs => ?_
      cases hxs
      exact ha
  | add new head =>
      refine unlisted_update hu fun xs hxs => ?_
      obtain ⟨ys, hL, rfl⟩ := Option.map_eq_some_iff.mp hxs
      have := hu head ys hL
      simp_all [args]
  | addTail new head =>
      refine unlisted_update hu fun xs hxs => ?_
      obtain ⟨ys, hL, rfl⟩ := Option.map_eq_some_iff.mp hxs
      have := hu head ys hL
      simp_all [args]
  | del entry => exact Lists.unlisted_erase_of hu
  | delInit entry =>
      refine unlisted_update (Lists.unlisted_erase_of hu) fun xs hxs => ?_
      cases hxs
      exact ha
  | splice list head =>
      cases hl : L list with
      | none => simpa [apply, hl] using hu
      | some ys =>
          cases ys with
          | nil => simpa [apply, hl] using hu
          | cons y ys =>
              simp only [apply, hl]
              refine unlisted_update (unlisted_update hu fun xs hxs => nomatch hxs) fun xs hxs => ?_
              obtain ⟨zs, hL, rfl⟩ := Option.map_eq_some_iff.mp hxs
              have h₁ := hu head zs hL
              have h₂ := hu list _ hl
              simp only [List.mem_cons, List.mem_append, not_or] at h₁ h₂ ⊢
              exact ⟨h₁.1, h₂.2, h₁.2⟩

theorem ListOp.EnabledAll.congr {f g : α → Bool} (hfg : ∀ a, f a = g a)
    (h : EnabledAll f L ops) : EnabledAll g L ops := by
  rwa [show g = f from funext fun a => (hfg a).symm]

/-- A run of operations does to the lists in the memory what it does to lists. -/
theorem ListOp.runAll_spec (hm : m.Holds L)
    (hops : EnabledAll (fun a => (m a).isSome) L ops) :
    wp (runAll ops) (fun _ m' => m'.Holds (applyAll ops L) ∧
      ∀ a, Unlisted L a → (∀ op ∈ ops, a ∉ op.args) → m' a = m a) m := by
  induction ops generalizing m L with
  | nil =>
      rw [runAll, wp_pure]
      exact ⟨hm, fun _ _ _ => rfl⟩
  | cons op ops ih =>
      rw [runAll, wp_bind]
      refine wp_mono (run_spec _ hm hops.1) fun _ m₁ h₁ => ?_
      have hops' := hops.2.congr fun a => (h₁.alloc a).symm
      refine wp_mono (ih h₁.holds hops') fun _ m₂ h₂ => ⟨h₂.1, fun a hu ha => ?_⟩
      rw [List.forall_mem_cons] at ha
      exact (h₂.2 a (unlisted_apply hu ha.1) ha.2).trans (h₁.frame a hu ha.1)

end

end Bitzer
