import Bitzer.Lists.Run

/-!
# What a list shows

The tests and the loops of `list.h` on a list that a memory holds. The rules of
the two loops are about any body: `list_for_each` needs the current entry's
link when the body is through with it, `list_for_each_safe` only that of the
entry after it.
-/

namespace Bitzer

open Lib

variable {α σ : Type} [DecidableEq α]

section
variable {mem : σ → ListMem α} {head p q : α} {body : α → Prog σ Unit} {I : List α → σ → Prop}
  {xs vs rest : List α} {fuel : Nat} {s : σ}

omit [DecidableEq α] in
theorem wp_nextIn {Q : α → σ → Prop} (h : (mem s).links.next p = some q) :
    wp (nextIn mem p) Q s ↔ Q q s := wp_of_run (by simp [nextIn, StateT.run, h])

/-- The rule of `list_for_each`. `I vs` holds when the entries `vs` were visited. -/
theorem listForEach_spec (hring : (mem s).links.Ring head xs) (hxs : head ∉ xs)
     (hfuel : xs.length < fuel) (hI : I [] s)
    (hbody : ∀ vs x rest s, xs = vs ++ x :: rest → I vs s → wp (body x) (fun _ s' =>
      I (vs ++ [x]) s' ∧ (mem s').links.next x = (rest ++ [head]).head?) s) :
    wp (listForEach mem head body fuel) (fun _ s' => I xs s') s := by
  have hloop : ∀ fuel vs rest s pos, xs = vs ++ rest → rest.length < fuel → I vs s →
      (rest ++ [head]).head? = some pos →
      wp (listForEachFrom mem head body fuel pos) (fun _ s' => I xs s') s := by
    intro fuel
    induction fuel with
    | zero => intro vs rest s pos _ hf; omega
    | succ fuel ih =>
        intro vs rest s pos hx hf hI hpos
        unfold listForEachFrom
        cases rest with
        | nil =>
            obtain rfl : head = pos := by simpa using hpos
            rw [if_neg (by simp), wp_pure, hx, List.append_nil]
            exact hI
        | cons x rest =>
            obtain rfl : x = pos := by simpa using hpos
            have hne : x ≠ head := fun h => hxs (by simp [hx, h])
            rw [if_pos hne, wp_bind]
            refine wp_mono (hbody vs x rest s hx hI) fun _ s' hs' => ?_
            obtain ⟨n, hn⟩ := Option.isSome_iff_exists.mp
              (List.isSome_head?.mpr (List.concat_ne_nil head rest))
            rw [wp_bind, wp_nextIn (hs'.2.trans hn)]
            refine ih (vs ++ [x]) rest s' n (by simp [hx]) ?_ hs'.1 hn
            simpa using hf
  obtain ⟨n, hn, hnext⟩ := hring.next_head
  unfold listForEach
  rw [wp_bind, wp_nextIn hnext]
  exact hloop fuel [] xs s n rfl hfuel hI hn

/-- The rule of `list_for_each_safe`. After the last entry, the link of the head is
read once more. -/
theorem listForEachSafe_spec (hring : (mem s).links.Ring head xs) (hxs : head ∉ xs)
    (hfuel : xs.length < fuel) (hI : I [] s)
    (hbody : ∀ vs x rest s, xs = vs ++ x :: rest → I vs s → wp (body x) (fun _ s' =>
      I (vs ++ [x]) s' ∧
        (∀ y rest', rest = y :: rest' → (mem s').links.next y = (rest' ++ [head]).head?) ∧
        (rest = [] → ((mem s').links.next head).isSome)) s) :
    wp (listForEachSafe mem head body fuel) (fun _ s' => I xs s') s := by
  have hloop : ∀ fuel vs rest s pos n, xs = vs ++ rest → rest.length < fuel → I vs s →
      (rest ++ [head]).head? = some pos → (∀ x rest', rest = x :: rest' →
        (rest' ++ [head]).head? = some n) →
      wp (listForEachSafeFrom mem head body fuel pos n) (fun _ s' => I xs s') s := by
    intro fuel
    induction fuel with
    | zero => intro vs rest s pos n _ hf; omega
    | succ fuel ih =>
        intro vs rest s pos n hx hf hI hpos hn
        unfold listForEachSafeFrom
        cases rest with
        | nil =>
            obtain rfl : head = pos := by simpa using hpos
            rw [if_neg (by simp), wp_pure, hx, List.append_nil]
            exact hI
        | cons x rest =>
            obtain rfl : x = pos := by simpa using hpos
            have hne : x ≠ head := fun h => hxs (by simp [hx, h])
            have hn := hn x rest rfl
            rw [if_pos hne, wp_bind]
            refine wp_mono (hbody vs x rest s hx hI) fun _ s' hs' => ?_
            obtain ⟨hI', hrest, hend⟩ := hs'
            obtain ⟨k, hk, hk'⟩ : ∃ k, (mem s').links.next n = some k ∧
                ∀ y rest', rest = y :: rest' → (rest' ++ [head]).head? = some k := by
              cases rest with
              | nil =>
                  obtain rfl : head = n := by simpa using hn
                  obtain ⟨k, hk⟩ := Option.isSome_iff_exists.mp (hend rfl)
                  exact ⟨k, hk, nofun⟩
              | cons y rest =>
                  obtain rfl : y = n := by simpa using hn
                  obtain ⟨k, hk⟩ := Option.isSome_iff_exists.mp
                    (List.isSome_head?.mpr (List.concat_ne_nil head rest))
                  refine ⟨k, (hrest y rest rfl).trans hk, fun _ _ h => ?_⟩
                  cases h
                  exact hk
            rw [wp_bind, wp_nextIn hk]
            refine ih (vs ++ [x]) rest s' n k (by simp [hx]) ?_ hI' hn hk'
            simpa using hf
  obtain ⟨pos, hpos, hnext⟩ := hring.next_head
  unfold listForEachSafe
  rw [wp_bind, wp_nextIn hnext, wp_bind]
  cases xs with
  | nil =>
      obtain rfl : head = pos := by simpa using hpos
      rw [wp_nextIn hnext]
      exact hloop fuel [] [] s head head rfl hfuel hI rfl nofun
  | cons x rest =>
      obtain rfl : x = pos := by simpa using hpos
      obtain ⟨n, hn, hnext'⟩ := hring.next_mem []
      rw [wp_nextIn hnext']
      refine hloop fuel [] (x :: rest) s x n rfl hfuel hI rfl fun _ _ h => ?_
      cases h
      exact hn

end

/-! ## Lists in a memory -/

/-- A body that writes down the entries. -/
def visit (x : α) : Prog (ListMem α × List α) Unit := modify fun s => (s.1, s.2 ++ [x])

/-- The list with this head is `xs`, whichever way it is looked at. -/
structure ListMem.Shows (m : ListMem α) (head : α) (xs : List α) : Prop where
  ring : m.links.Ring head xs
  nodup : (head :: xs).Nodup
  empty : (listEmpty head).run m = some (xs.isEmpty, m)
  first : (listFirstEntryOrNull head).run m = some (xs.head?, m)
  last : (listPrev head).run m = (head :: xs).getLast?.map (·, m)
  visited : ∀ fuel, xs.length < fuel →
    (listForEach Prod.fst head visit fuel).run (m, []) = some ((), m, xs)

section
variable {m m' : ListMem α} {L : Lists α} {head : α} {xs : List α} {fuel : Nat}

theorem ListMem.Holds.shows (hm : m.Holds L) (hL : L head = some xs) : m.Shows head xs := by
  have hring := hm.ring head xs hL
  have hnodup := hm.nodup head xs hL
  obtain ⟨n, hn, hnext⟩ := hring.next_head
  obtain ⟨p, hp, hprev⟩ := hring.prev_head
  have hempty : (listEmpty head).run m = some (xs.isEmpty, m) := by
    have hnh : (n == head) = xs.isEmpty := by
      cases xs with
      | nil =>
          obtain rfl : head = n := by simpa using hn
          simp
      | cons x xs =>
          obtain rfl : x = n := by simpa using hn
          have hne : x ≠ head := fun h => (List.nodup_cons.mp hnodup).1 (by simp [h])
          simpa using hne
    have hwp : wp (listEmpty head) (fun v t => v = xs.isEmpty ∧ t = m) m := by
      unfold listEmpty
      rw [wp_bind, wp_listNext hnext, wp_pure]
      exact ⟨hnh, rfl⟩
    obtain ⟨v, t, hrun, rfl, rfl⟩ := hwp
    exact hrun
  refine ⟨hring, hnodup, hempty, ?_, ?_, fun fuel hf => ?_⟩
  · have hfirst : wp (listFirstEntryOrNull head) (fun v t => v = xs.head? ∧ t = m) m := by
      unfold listFirstEntryOrNull
      rw [wp_bind, wp_of_run hempty]
      cases xs with
      | nil => simp
      | cons x xs =>
          obtain rfl : x = n := by simpa using hn
          rw [if_pos (by simp), wp_bind, wp_listNext hnext, wp_pure]
          exact ⟨rfl, rfl⟩
    obtain ⟨v, t, hrun, rfl, rfl⟩ := hfirst
    exact hrun
  · rw [hp]
    simp [listPrev, StateT.run, hprev]
  · have hloop : wp (listForEach Prod.fst head visit fuel) (fun _ s => s = (m, xs)) (m, []) := by
      refine listForEach_spec (I := fun vs s => s = (m, vs)) hring (List.nodup_cons.mp hnodup).1 hf
        rfl fun vs x rest s hx hs => ?_
      subst hs
      obtain ⟨k, hk, hnext⟩ := (hx ▸ hring : m.links.Ring head (vs ++ x :: rest)).next_mem vs
      unfold visit
      rw [wp_modify]
      exact ⟨rfl, hnext.trans hk.symm⟩
    obtain ⟨_, s, hrun, rfl⟩ := hloop
    exact hrun

/-- **Lists.** From a memory of any content, a run of operations that may all be
called where their turn comes does not fault; it leaves under every head the list
that the operations make on lists, and changes no node that none of them was
called on. -/
theorem list_operations_refine {ops : List (ListOp α)}
    (hops : ListOp.EnabledAll (fun a => (m a).isSome) (fun _ => none) ops) :
    ∃ m', (ListOp.runAll ops).run m = some ((), m') ∧
      (∀ head xs, ListOp.applyAll ops (fun _ => none) head = some xs → m'.Shows head xs) ∧
      ∀ a, (∀ op ∈ ops, a ∉ op.args) → m' a = m a := by
  obtain ⟨_, m', hrun, hholds, hframe⟩ := ListOp.runAll_spec Rings.none hops
  exact ⟨m', hrun, fun head xs hL => hholds.shows hL,
    fun a ha => hframe a (fun _ _ h => nomatch h) ha⟩

/-- Two lists are made, one is spliced into the other and made again, and an entry
is taken out. -/
theorem list_operations_refine_two : ∃ m' : ListMem (Fin 6),
    (ListOp.runAll [.init 0, .addTail 1 0, .add 2 0, .init 3, .add 4 3, .splice 3 0, .init 3,
      .delInit 1]).run (fun _ => some {}) = some ((), m') ∧
      m'.Shows 0 [4, 2] ∧ m'.Shows 3 [] ∧ m'.Shows 1 [] ∧ m' 5 = some {} := by
  have hops : ListOp.EnabledAll (fun _ : Fin 6 => true) (fun _ => none) [.init 0, .addTail 1 0,
      .add 2 0, .init 3, .add 4 3, .splice 3 0, .init 3, .delInit 1] := by decide
  obtain ⟨m', hrun, hshows, hframe⟩ := list_operations_refine (m := fun _ => some {}) hops
  exact ⟨m', hrun, hshows 0 _ (by decide), hshows 3 _ (by decide), hshows 1 _ (by decide),
    hframe 5 (by decide)⟩

/-- A body that writes down the entries and deletes those that meet `p`. -/
def visitDelIf (p : α → Bool) (x : α) : Prog (ListMem α × List α) Unit := do
  visit x
  if p x then onFst (listDel x) else pure ()

/-- **Deleting in `list_for_each_safe`.** The loop visits every entry that was
there at its start, once and in their order, whichever are deleted on the way; the
others stay, in their order, and so do all other lists. -/
theorem listForEachSafe_deletes {p : α → Bool} (hm : m.Holds L) (hL : L head = some xs)
    (hf : xs.length < fuel) :
    wp (listForEachSafe Prod.fst head (visitDelIf p) fuel)
      (fun _ s => s.2 = xs ∧
        s.1.Holds (Function.update L head (some (xs.filter fun x => !p x)))) (m, []) := by
  have hhead := (List.nodup_cons.mp (hm.nodup head xs hL)).1
  -- what is left of the entries that were visited, and the ones to come
  let left (vs rest : List α) : Lists α :=
    Function.update L head (some (vs.filter (fun x => !p x) ++ rest))
  have hleft : ∀ vs x rest, left vs (x :: rest) head =
      some (vs.filter (fun x => !p x) ++ x :: rest) := fun _ _ _ => Function.update_self ..
  have hbody : ∀ vs x rest s, s.1.Holds (left vs (x :: rest)) → s.2 = vs →
      wp (visitDelIf p x) (fun _ s' => s'.1.Holds (left (vs ++ [x]) rest) ∧ s'.2 = vs ++ [x])
        s := by
    rintro vs x rest ⟨m₁, vs'⟩ h rfl
    unfold visitDelIf visit
    rw [wp_bind, wp_modify]
    split
    · rename_i hp
      rw [wp_onFst]
      refine wp_mono (listDel_spec h (hleft _ x rest) (by simp)) fun _ m₂ h₂ => ⟨?_, rfl⟩
      have hholds := h₂.holds
      rw [Lists.erase_eq h (hleft _ x rest), Function.update_idem] at hholds
      simpa [left, hp] using hholds
    · rename_i hp
      rw [wp_pure]
      refine ⟨?_, rfl⟩
      simpa [left, hp] using h
  refine wp_mono (listForEachSafe_spec
    (I := fun vs s => (∀ rest, xs = vs ++ rest → s.1.Holds (left vs rest)) ∧ s.2 = vs)
    (hm.ring head xs hL) hhead hf ⟨?_, rfl⟩ ?_) fun _ s h => ⟨h.2, ?_⟩
  · intro rest hx
    show m.Holds (Function.update L head (some rest))
    rw [List.nil_append] at hx
    rwa [← hx, ← hL, Function.update_eq_self]
  · rintro vs x rest s hx ⟨h, hvs⟩
    refine wp_mono (hbody vs x rest s (h (x :: rest) hx) hvs) fun _ s' h₂ => ⟨⟨?_, h₂.2⟩, ?_, ?_⟩
    · intro rest' hx'
      rw [hx, List.append_assoc, List.append_cancel_left_eq, List.singleton_append,
        List.cons.injEq] at hx'
      exact hx'.2 ▸ h₂.1
    · rintro y rest' rfl
      obtain ⟨n, hn, hnext⟩ := (h₂.1.ring head _ (hleft (vs ++ [x]) y rest')).next_mem _
      exact hnext.trans hn.symm
    · rintro rfl
      obtain ⟨n, -, hnext⟩ := (h₂.1.ring head _ (Function.update_self ..)).next_head
      exact Option.isSome_of_mem hnext
  · have := h.1 [] (by simp)
    simpa [left] using this

end

/-- The odd entry of `2, 1` goes, when both have been visited. -/
theorem listForEachSafe_deletes_odd : ∃ m m' : ListMem (Fin 6), m.Shows 0 [2, 1] ∧
    (listForEachSafe Prod.fst 0 (visitDelIf fun x => x.val % 2 == 1) 3).run (m, []) =
      some ((), m', [2, 1]) ∧ m'.Shows 0 [2] := by
  have hops : ListOp.EnabledAll (fun _ : Fin 6 => true) (fun _ => none)
      [.init 0, .add 1 0, .add 2 0] := by decide
  obtain ⟨_, m, -, hholds, -⟩ := ListOp.runAll_spec (m := fun _ => some {}) Rings.none hops
  have hL : ListOp.applyAll [.init 0, .add 1 0, .add 2 0] (fun _ : Fin 6 => none) 0 =
      some [2, 1] := by decide
  obtain ⟨_, ⟨m', _⟩, hrun, rfl, hholds'⟩ := listForEachSafe_deletes
    (p := fun x => x.val % 2 == 1) hholds hL (show 2 < 3 by decide)
  exact ⟨m, m', hholds.shows hL, hrun, hholds'.shows (Function.update_self ..)⟩

end Bitzer
