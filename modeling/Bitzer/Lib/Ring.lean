import Mathlib.Data.List.Chain
import Mathlib.Data.List.Nodup
import Mathlib.Logic.Function.Basic

/-!
# Rings of linked nodes

Nodes with a link forward and a link back. A ring is a node and the nodes on
the way along the links back to it. Every change of links is made of steps that
join one node to another; `Links.chain_join` and `Links.chain_frame` say which
ways such a step closes, and which it leaves alone. `Rings` is a family of rings
without a common node, named by one node of each.
-/

namespace Lib

/-- The links of the nodes; `none` where nothing was stored. -/
structure Links (α : Type) where
  next : α → Option α
  prev : α → Option α

variable {α : Type}

namespace Links

/-- The two nodes are linked to each other. -/
def Joined (k : Links α) (x y : α) : Prop := k.next x = some y ∧ k.prev y = some x

/-- The way from `h` along the links passes through `xs` and ends at `h`. -/
def Ring (k : Links α) (h : α) (xs : List α) : Prop := List.IsChain k.Joined (h :: xs ++ [h])

section
variable [DecidableEq α]

/-- Link two nodes to each other. -/
def join (k : Links α) (x y : α) : Links α where
  next := Function.update k.next x (some y)
  prev := Function.update k.prev y (some x)

variable {k : Links α} {a b x y : α} {l l₁ l₂ : List α}

theorem joined_join : (k.join x y).Joined x y :=
  ⟨Function.update_self .., Function.update_self ..⟩

theorem Joined.join (h : k.Joined a b) (ha : a ≠ x) (hb : b ≠ y) : (k.join x y).Joined a b :=
  ⟨(Function.update_of_ne ha ..).trans h.1, (Function.update_of_ne hb ..).trans h.2⟩

/-- A way on which `x` is the last node at most, and `y` the first. -/
theorem chain_frame (h : l.IsChain k.Joined) (hx : x ∉ l.dropLast) (hy : y ∉ l.tail) :
    l.IsChain (k.join x y).Joined := by
  induction h with
  | nil => exact .nil
  | singleton a => exact .singleton a
  | @cons_cons a b l hab hl ih =>
      simp only [List.dropLast_cons_cons, List.mem_cons, not_or] at hx
      simp only [List.tail_cons, List.mem_cons, not_or] at hy
      exact .cons_cons (hab.join (Ne.symm hx.1) (Ne.symm hy.1)) (ih hx.2 hy.2)

/-- Two ways become one where the end of the first is joined to the start of the
second. -/
theorem chain_join (h₁ : (l₁ ++ [x]).IsChain k.Joined) (h₂ : (y :: l₂).IsChain k.Joined)
    (hx₁ : x ∉ l₁) (hx₂ : x ∉ (y :: l₂).dropLast) (hy₁ : y ∉ (l₁ ++ [x]).tail) (hy₂ : y ∉ l₂) :
    (l₁ ++ x :: y :: l₂).IsChain (k.join x y).Joined := by
  refine List.isChain_append_cons_cons.mpr ⟨?_, joined_join, ?_⟩
  · exact chain_frame h₁ (by rwa [List.dropLast_concat]) hy₁
  · exact chain_frame h₂ hx₂ hy₂

theorem join_comm (hx : x ≠ a) (hy : y ≠ b) :
    (k.join x y).join a b = (k.join a b).join x y := by
  unfold join
  rw [Function.update_comm hx, Function.update_comm hy]

/-! ## Changes of a ring -/

variable {h p n f e : α} {xs ys : List α}

theorem ring_singleton : (k.join h h).Ring h [] := List.isChain_pair.mpr joined_join

omit [DecidableEq α] in
/-- A ring is linked where it is split. -/
theorem Ring.joined (l₁ l₂ : List α) (hr : k.Ring h (l₁ ++ l₂)) : ∃ p n,
    (h :: l₁).getLast? = some p ∧ (l₂ ++ [h]).head? = some n ∧ k.Joined p n := by
  obtain ⟨p, hp⟩ := Option.isSome_iff_exists.mp
    (List.getLast?_isSome.mpr (List.cons_ne_nil h l₁))
  obtain ⟨n, hn⟩ := Option.isSome_iff_exists.mp
    (List.isSome_head?.mpr (List.concat_ne_nil h l₂))
  have hway : List.IsChain k.Joined ((h :: l₁) ++ (l₂ ++ [h])) := by simpa [Ring] using hr
  exact ⟨p, n, hp, hn, (List.isChain_append.mp hway).2.2 p hp n hn⟩

omit [DecidableEq α] in
theorem Ring.next_head (hr : k.Ring h xs) : ∃ n, (xs ++ [h]).head? = some n ∧
    k.next h = some n := by
  obtain ⟨p, n, hp, hn, hj⟩ := hr.joined [] xs
  obtain rfl : h = p := by simpa using hp
  exact ⟨n, hn, hj.1⟩

omit [DecidableEq α] in
theorem Ring.next_mem (l₁ : List α) (hr : k.Ring h (l₁ ++ x :: l₂)) : ∃ n,
    (l₂ ++ [h]).head? = some n ∧ k.next x = some n := by
  rw [List.append_cons] at hr
  obtain ⟨p, n, hp, hn, hj⟩ := hr.joined (l₁ ++ [x]) l₂
  rw [← List.cons_append, List.getLast?_concat, Option.some.injEq] at hp
  exact ⟨n, hn, hp ▸ hj.1⟩

omit [DecidableEq α] in
theorem Ring.prev_head (hr : k.Ring h xs) : ∃ p, (h :: xs).getLast? = some p ∧
    k.prev h = some p := by
  rw [← List.append_nil xs] at hr
  obtain ⟨p, n, hp, hn, hj⟩ := hr.joined xs []
  obtain rfl : h = n := by simpa using hn
  exact ⟨p, hp, hj.2⟩

/-- A ring without the two nodes. -/
theorem Ring.frame (hr : k.Ring h xs) (hx : x ∉ h :: xs) (hy : y ∉ h :: xs) :
    (k.join x y).Ring h xs := by
  refine chain_frame hr ?_ ?_
  · rwa [List.dropLast_concat]
  · simpa [or_comm] using hy

/-- A ring is closed by joining the end of one way to the start of another. -/
theorem ring_join (h₁ : (h :: l₁).IsChain k.Joined) (h₂ : (l₂ ++ [h]).IsChain k.Joined)
    (hd : (h :: (l₁ ++ l₂)).Nodup) (hp : (h :: l₁).getLast? = some p)
    (hn : (l₂ ++ [h]).head? = some n) : (k.join p n).Ring h (l₁ ++ l₂) := by
  obtain ⟨A, hA⟩ := List.getLast?_eq_some_iff.mp hp
  obtain ⟨B, hB⟩ := List.head?_eq_some_iff.mp hn
  have hd₁ : (A ++ [p]).Nodup := hA ▸ hd.sublist (by simp)
  have hd₂ : (n :: B).Nodup := by
    rw [← hB, List.nodup_append_comm]
    exact hd.sublist (by simp)
  have hdisj : List.Disjoint (h :: l₁) l₂ := List.disjoint_of_nodup_append hd
  have hhead : h ∉ l₁ := fun hm => (List.nodup_cons.mp hd).1 (List.mem_append_left _ hm)
  have hpmem : p ∈ h :: l₁ := hA ▸ by simp
  have hnmem : n ∈ l₂ ++ [h] := hB ▸ by simp
  rw [hA] at h₁
  rw [hB] at h₂
  have hway : h :: (l₁ ++ l₂) ++ [h] = A ++ p :: n :: B := by
    have := congrArg₂ (· ++ ·) hA hB
    simpa using this
  show List.IsChain _ _
  rw [hway]
  refine chain_join h₁ h₂ ?_ ?_ ?_ (List.nodup_cons.mp hd₂).1
  · exact fun hm => (List.nodup_append.mp hd₁).2.2 p hm p (by simp) rfl
  · rw [← hB, List.dropLast_concat]
    exact hdisj hpmem
  · rw [← hA, List.tail_cons]
    intro hm
    rcases List.mem_append.mp hnmem with hn | hn
    · exact hdisj (List.mem_cons_of_mem _ hm) hn
    · exact hhead (List.mem_singleton.mp hn ▸ hm)

omit [DecidableEq α] in
/-- The ways before and after a part of a ring. -/
theorem Ring.ways (hr : k.Ring h (l₁ ++ ys ++ l₂)) :
    (h :: l₁).IsChain k.Joined ∧ ys.IsChain k.Joined ∧ (l₂ ++ [h]).IsChain k.Joined := by
  have hway : ∀ zs, zs <:+: h :: (l₁ ++ ys ++ l₂) ++ [h] → zs.IsChain k.Joined :=
    fun _ => List.IsChain.infix hr
  refine ⟨hway _ ⟨[], ys ++ l₂ ++ [h], ?_⟩, hway _ ⟨h :: l₁, l₂ ++ [h], ?_⟩,
    hway _ ⟨h :: l₁ ++ ys, [], ?_⟩⟩ <;> simp

/-- A part of a ring is cut out by joining what is before it to what is after. -/
theorem Ring.cut (hr : k.Ring h (l₁ ++ ys ++ l₂)) (hd : (h :: (l₁ ++ ys ++ l₂)).Nodup)
    (hp : (h :: l₁).getLast? = some p) (hn : (l₂ ++ [h]).head? = some n) :
    (k.join p n).Ring h (l₁ ++ l₂) :=
  ring_join hr.ways.1 hr.ways.2.2 (hd.sublist (by simp)) hp hn

/-- A way from `f` to `e` is put into a ring between two of its nodes. -/
theorem Ring.splice (hr : k.Ring h (l₁ ++ l₂)) (hys : ys.IsChain k.Joined)
    (hd : (h :: (l₁ ++ ys ++ l₂)).Nodup) (hp : (h :: l₁).getLast? = some p)
    (hn : (l₂ ++ [h]).head? = some n) (hf : ys.head? = some f) (he : ys.getLast? = some e) :
    ((k.join p f).join e n).Ring h (l₁ ++ ys ++ l₂) := by
  obtain ⟨A, hA⟩ := List.getLast?_eq_some_iff.mp hp
  obtain ⟨B, rfl⟩ := List.head?_eq_some_iff.mp hf
  rw [show l₁ ++ l₂ = l₁ ++ [] ++ l₂ by simp] at hr
  obtain ⟨h₁, -, h₂⟩ := hr.ways
  have hpmem : p ∈ h :: l₁ := hA ▸ by simp
  have hd' : (h :: l₁ ++ (f :: B ++ l₂)).Nodup := by simpa using hd
  have hdisj : List.Disjoint (h :: l₁) (f :: B ++ l₂) := List.disjoint_of_nodup_append hd'
  have hd₁ : (A ++ [p]).Nodup := hA ▸ (List.nodup_append.mp hd').1
  have hdr : (f :: B ++ l₂).Nodup := (List.nodup_append.mp hd').2.1
  have hdys : (f :: B).Nodup := (List.nodup_append.mp hdr).1
  rw [hA] at h₁
  have hfront : (h :: (l₁ ++ f :: B)).IsChain (k.join p f).Joined := by
    rw [show h :: (l₁ ++ f :: B) = A ++ p :: f :: B by
      rw [← List.cons_append, hA, List.append_assoc, List.singleton_append]]
    refine chain_join h₁ hys ?_ ?_ ?_ (List.nodup_cons.mp hdys).1
    · exact fun hm => (List.nodup_append.mp hd₁).2.2 p hm p (by simp) rfl
    · exact fun hm => hdisj hpmem (List.mem_append_left _ ((List.dropLast_sublist _).subset hm))
    · rw [← hA, List.tail_cons]
      exact fun hm => hdisj (List.mem_cons_of_mem _ hm) (by simp)
  have hback : (l₂ ++ [h]).IsChain (k.join p f).Joined := by
    refine chain_frame h₂ ?_ ?_
    · rw [List.dropLast_concat]
      exact fun hm => hdisj hpmem (List.mem_append_right _ hm)
    · intro hm
      rcases List.mem_append.mp (List.mem_of_mem_tail hm) with hm | hm
      · exact (List.nodup_append.mp hdr).2.2 f (by simp) f hm rfl
      · rw [List.mem_singleton] at hm
        exact hdisj (show f ∈ h :: l₁ by simp [hm]) (by simp)
  refine ring_join hfront hback hd ?_ hn
  rw [← List.cons_append, List.getLast?_append_of_ne_nil _ (by simp)]
  exact he

end

end Links

/-! ## Families of rings -/

/-- Rings without a common node. `L` maps the node that names a ring to the
others on it. -/
structure Rings (k : Links α) (L : α → Option (List α)) : Prop where
  ring : ∀ h xs, L h = some xs → k.Ring h xs
  nodup : ∀ h xs, L h = some xs → (h :: xs).Nodup
  apart : ∀ h h' xs ys, L h = some xs → L h' = some ys → h ≠ h' →
    List.Disjoint (h :: xs) (h' :: ys)

/-- The node is on no ring of the family. -/
def Unlisted (L : α → Option (List α)) (x : α) : Prop := ∀ h xs, L h = some xs → x ∉ h :: xs

namespace Rings

variable {k k' : Links α} {L L' : α → Option (List α)} {h p n x : α} {xs ys l₁ l₂ : List α}

theorem none : Rings k fun _ => .none where
  ring _ _ hL := nomatch hL
  nodup _ _ hL := nomatch hL
  apart _ _ _ _ hL := nomatch hL

/-- One ring is changed, the others of the new family are left alone. -/
theorem change (hr : Rings k L) (hring : k'.Ring h xs) (hd : (h :: xs).Nodup)
    (hh : L' h = some xs) (ho : ∀ h' ys, h' ≠ h → L' h' = some ys →
      L h' = some ys ∧ k'.Ring h' ys ∧ List.Disjoint (h :: xs) (h' :: ys)) : Rings k' L' where
  ring a ys ha := by
    by_cases hah : a = h
    · subst hah
      rw [hh] at ha
      cases ha
      exact hring
    · exact (ho a ys hah ha).2.1
  nodup a ys ha := by
    by_cases hah : a = h
    · subst hah
      rw [hh] at ha
      cases ha
      exact hd
    · exact hr.nodup a ys (ho a ys hah ha).1
  apart a b ys zs ha hb hab := by
    by_cases hah : a = h
    · subst hah
      rw [hh] at ha
      cases ha
      exact (ho b zs (Ne.symm hab) hb).2.2
    · by_cases hbh : b = h
      · subst hbh
        rw [hh] at hb
        cases hb
        exact List.disjoint_comm.mp (ho a ys hah ha).2.2
      · exact hr.apart a b ys zs (ho a ys hah ha).1 (ho b zs hbh hb).1 hab

/-- The links of the nodes on the rings are all that matters. -/
theorem congr (hr : Rings k L) (hk : ∀ h xs, L h = some xs → ∀ a ∈ h :: xs,
    k'.next a = k.next a ∧ k'.prev a = k.prev a) : Rings k' L where
  ring h xs hL := by
    refine List.IsChain.imp_of_mem_imp (fun a b ha hb hj => ?_) (hr.ring h xs hL)
    have hmem : ∀ c ∈ h :: xs ++ [h], c ∈ h :: xs := fun c hc => by simpa [or_comm] using hc
    exact ⟨(hk h xs hL a (hmem a ha)).1.trans hj.1, (hk h xs hL b (hmem b hb)).2.trans hj.2⟩
  nodup := hr.nodup
  apart := hr.apart

/-- A node of a ring is on no other. -/
theorem not_mem (hr : Rings k L) (hL : L h = some xs) {h' : α} (hne : h' ≠ h)
    (hL' : L h' = some ys) (hp : p ∈ h :: xs) : p ∉ h' :: ys :=
  fun hp' => hr.apart h h' xs ys hL hL' (Ne.symm hne) hp hp'

variable [DecidableEq α]

/-- A node that is on no ring becomes one. -/
theorem create (hr : Rings k L) (hx : Unlisted L x) :
    Rings (k.join x x) (Function.update L x (some [])) := by
  refine hr.change (h := x) Links.ring_singleton (List.nodup_singleton x)
    (Function.update_self ..) fun h' ys hne hL => ?_
  rw [Function.update_of_ne hne] at hL
  refine ⟨hL, (hr.ring h' ys hL).frame (hx h' ys hL) (hx h' ys hL), ?_⟩
  exact List.singleton_disjoint.mpr (hx h' ys hL)

theorem insert (hr : Rings k L) (hL : L h = some (l₁ ++ l₂)) (hx : Unlisted L x)
    (hp : (h :: l₁).getLast? = some p) (hn : (l₂ ++ [h]).head? = some n) :
    Rings ((k.join p x).join x n) (Function.update L h (some (l₁ ++ x :: l₂))) := by
  have hd := hr.nodup h _ hL
  have hd' : (h :: (l₁ ++ [x] ++ l₂)).Nodup := by
    have hperm : (h :: (l₁ ++ [x] ++ l₂)).Perm (x :: h :: (l₁ ++ l₂)) := by
      rw [List.append_assoc, List.singleton_append]
      exact (List.perm_middle.cons h).trans (List.Perm.swap x h _)
    exact hperm.nodup_iff.mpr (List.nodup_cons.mpr ⟨hx h _ hL, hd⟩)
  have hpmem : p ∈ h :: (l₁ ++ l₂) := by
    have := List.mem_of_getLast? hp
    simp only [List.mem_cons, List.mem_append] at this ⊢
    tauto
  have hnmem : n ∈ h :: (l₁ ++ l₂) := by
    have := List.mem_of_head? hn
    simp only [List.mem_cons, List.mem_append] at this ⊢
    tauto
  have hring := (hr.ring h _ hL).splice (List.isChain_singleton x) hd' hp hn rfl rfl
  rw [List.append_assoc, List.singleton_append] at hring hd'
  refine hr.change hring hd' (Function.update_self ..) fun h' ys hne hL' => ?_
  rw [Function.update_of_ne hne] at hL'
  have hx' := hx h' ys hL'
  refine ⟨hL', ((hr.ring h' ys hL').frame (hr.not_mem hL hne hL' hpmem) hx').frame hx'
    (hr.not_mem hL hne hL' hnmem), ?_⟩
  intro a ha
  by_cases hax : a = x
  · exact hax ▸ hx'
  · refine hr.not_mem hL hne hL' ?_
    simp only [List.mem_cons, List.mem_append, hax, false_or] at ha ⊢
    exact ha

theorem remove (hr : Rings k L) (hL : L h = some (l₁ ++ x :: l₂))
    (hp : (h :: l₁).getLast? = some p) (hn : (l₂ ++ [h]).head? = some n) :
    Rings (k.join p n) (Function.update L h (some (l₁ ++ l₂))) := by
  have hd := hr.nodup h _ hL
  have hsub : (h :: (l₁ ++ l₂)).Sublist (h :: (l₁ ++ x :: l₂)) := by simp
  have hpmem : p ∈ h :: (l₁ ++ x :: l₂) := by
    have := List.mem_of_getLast? hp
    simp only [List.mem_cons, List.mem_append] at this ⊢
    tauto
  have hnmem : n ∈ h :: (l₁ ++ x :: l₂) := by
    have := List.mem_of_head? hn
    simp only [List.mem_cons, List.mem_append] at this ⊢
    tauto
  have hway : l₁ ++ x :: l₂ = l₁ ++ [x] ++ l₂ := by simp
  have hring := hr.ring h _ hL
  rw [hway] at hring hd
  refine hr.change (hring.cut hd hp hn) (hsub.nodup (hway ▸ hd)) (Function.update_self ..)
    fun h' ys hne hL' => ?_
  rw [Function.update_of_ne hne] at hL'
  refine ⟨hL', (hr.ring h' ys hL').frame (hr.not_mem hL hne hL' hpmem)
    (hr.not_mem hL hne hL' hnmem), fun a ha => hr.not_mem hL hne hL' (hsub.subset ha)⟩

/-- The nodes of a ring go to the front of another; the node that named it is left
out. -/
theorem splice (hr : Rings k L) {l f e : α} (hL : L h = some xs) (hl : L l = some ys)
    (hne : l ≠ h) (hn : (xs ++ [h]).head? = some n) (hf : ys.head? = some f)
    (he : ys.getLast? = some e) :
    Rings ((k.join h f).join e n)
      (Function.update (Function.update L l .none) h (some (ys ++ xs))) := by
  have hys : ys.IsChain k.Joined :=
    List.IsChain.infix (hr.ring l ys hl) ⟨[l], [l], by simp⟩
  have hd : (h :: ([] ++ ys ++ xs)).Nodup := by
    have hdh := hr.nodup h xs hL
    have hdl := (List.nodup_cons.mp (hr.nodup l ys hl)).2
    have hdisj := hr.apart h l xs ys hL hl (Ne.symm hne)
    rw [List.nil_append]
    have hperm : (h :: (ys ++ xs)).Perm (h :: xs ++ ys) := List.perm_append_comm.cons h
    exact hperm.nodup_iff.mpr (List.Nodup.append hdh hdl
      fun a ha ha' => hdisj ha (List.mem_cons_of_mem _ ha'))
  have hfmem : f ∈ l :: ys := List.mem_cons_of_mem _ (List.mem_of_head? hf)
  have hemem : e ∈ l :: ys := List.mem_cons_of_mem _ (List.mem_of_getLast? he)
  have hnmem : n ∈ h :: xs := by
    have := List.mem_of_head? hn
    simp only [List.mem_cons, List.mem_append, List.not_mem_nil, or_false] at this ⊢
    tauto
  have hring : ((k.join h f).join e n).Ring h ([] ++ ys ++ xs) := by
    have hring : k.Ring h ([] ++ xs) := hr.ring h xs hL
    exact hring.splice hys hd rfl hn hf he
  rw [List.nil_append] at hring hd
  refine hr.change hring hd (Function.update_self ..) fun h' zs hneh hL' => ?_
  rw [Function.update_of_ne hneh] at hL'
  have hnel : h' ≠ l := by
    rintro rfl
    rw [Function.update_self] at hL'
    cases hL'
  rw [Function.update_of_ne hnel] at hL'
  refine ⟨hL', ((hr.ring h' zs hL').frame (hr.not_mem hL hneh hL' List.mem_cons_self)
    (hr.not_mem hl hnel hL' hfmem)).frame (hr.not_mem hl hnel hL' hemem)
    (hr.not_mem hL hneh hL' hnmem), fun a ha => ?_⟩
  simp only [List.mem_cons, List.mem_append] at ha
  rcases ha with ha | ha | ha
  · exact hr.not_mem hL hneh hL' (by simp [ha])
  · exact hr.not_mem hl hnel hL' (by simp [ha])
  · exact hr.not_mem hL hneh hL' (by simp [ha])

end Rings

end Lib
