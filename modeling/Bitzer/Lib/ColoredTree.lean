import Mathlib.Algebra.Group.Nat.Defs
import Mathlib.Data.List.Basic
import Mathlib.Tactic.Common

/-!
# Coloured binary trees and their zippers

A tree is seen either whole (`CTree`) or as a subtree in a hole of a path
(`fill`): a path lists the frames from the hole up to the root, the way
bottom-up algorithms walk parent links. The two mirror images of every shape
are one term here, `join d`, whose first subtree sits on side `d`.

`RedBlack` is the usual red-black condition; `redBlack_fill` splits it at any
hole into a condition on the path and one on the subtree, so that a local
change of shape is checked locally.
-/

namespace Lib

inductive Color
  | black
  | red
  deriving DecidableEq, Repr

inductive Side
  | left
  | right
  deriving DecidableEq, Repr

def Side.other : Side → Side
  | .left => .right
  | .right => .left

@[simp] theorem Side.other_other (d : Side) : d.other.other = d := by
  cases d <;> rfl

@[simp] theorem Side.other_ne (d : Side) : d.other ≠ d := by
  cases d <;> simp [Side.other]

theorem Side.eq_other_of_ne {d e : Side} (h : d ≠ e) : d = e.other := by
  cases d <;> cases e <;> simp_all [Side.other]

inductive CTree (α : Type) where
  | nil
  | node (color : Color) (left : CTree α) (val : α) (right : CTree α)
  deriving DecidableEq, Repr

variable {α : Type}

namespace CTree

/-- The values from left to right. -/
def inorder : CTree α → List α
  | nil => []
  | node _ l x r => l.inorder ++ x :: r.inorder

/-- A missing subtree counts as black. -/
def rootColor : CTree α → Color
  | nil => .black
  | node c _ _ _ => c

/-- The tree with its root made black. -/
def blacken : CTree α → CTree α
  | nil => nil
  | node _ l x r => node .black l x r

/-- The node with `a` as its child on side `d` and `b` on the other side. -/
def join (d : Side) (c : Color) (a : CTree α) (x : α) (b : CTree α) : CTree α :=
  match d with
  | .left => node c a x b
  | .right => node c b x a

/-- The number of black nodes on each path from the root to a missing
subtree. -/
def pathBlacks : CTree α → List Nat
  | nil => [0]
  | node .black l _ r => (l.pathBlacks ++ r.pathBlacks).map (· + 1)
  | node .red l _ r => l.pathBlacks ++ r.pathBlacks

/-- No red node has a red child. -/
def NoRedRed : CTree α → Prop
  | nil => True
  | node c l _ r =>
      (c = .red → l.rootColor = .black ∧ r.rootColor = .black) ∧
        l.NoRedRed ∧ r.NoRedRed

/-- No red node has a red child and every path has `n` black nodes. -/
def Balanced : CTree α → Nat → Prop
  | nil, n => n = 0
  | node .black l _ r, n => ∃ k, n = k + 1 ∧ l.Balanced k ∧ r.Balanced k
  | node .red l _ r, n =>
      l.rootColor = .black ∧ r.rootColor = .black ∧ l.Balanced n ∧ r.Balanced n

/-- The red-black condition on a whole tree. -/
def RedBlack (t : CTree α) : Prop :=
  t.rootColor = .black ∧ ∃ n, t.Balanced n

@[simp] theorem inorder_nil : (nil : CTree α).inorder = [] := rfl

@[simp] theorem inorder_node (c : Color) (l : CTree α) (x : α) (r : CTree α) :
    (node c l x r).inorder = l.inorder ++ x :: r.inorder := rfl

@[simp] theorem rootColor_nil : (nil : CTree α).rootColor = .black := rfl

@[simp] theorem rootColor_node (c : Color) (l : CTree α) (x : α) (r : CTree α) :
    (node c l x r).rootColor = c := rfl

@[simp] theorem rootColor_join (d : Side) (c : Color) (a : CTree α) (x : α)
    (b : CTree α) : (join d c a x b).rootColor = c := by
  cases d <;> rfl

@[simp] theorem blacken_join (d : Side) (c : Color) (a : CTree α) (x : α)
    (b : CTree α) : (join d c a x b).blacken = join d .black a x b := by
  cases d <;> rfl

@[simp] theorem rootColor_blacken (t : CTree α) : t.blacken.rootColor = .black := by
  cases t <;> rfl

@[simp] theorem inorder_blacken (t : CTree α) : t.blacken.inorder = t.inorder := by
  cases t <;> rfl

theorem blacken_of_black {t : CTree α} (h : t.rootColor = .black) : t.blacken = t := by
  cases t with
  | nil => rfl
  | node c l x r =>
      obtain rfl : c = .black := h
      rfl

/-- Colours do not matter to the order of the values. -/
theorem inorder_join_color (d : Side) (c c' : Color) (a : CTree α) (x : α)
    (b : CTree α) : (join d c a x b).inorder = (join d c' a x b).inorder := by
  cases d <;> rfl

theorem inorder_join_congr {d : Side} {c c' : Color} {a a' b b' : CTree α} {x : α}
    (ha : a.inorder = a'.inorder) (hb : b.inorder = b'.inorder) :
    (join d c a x b).inorder = (join d c' a' x b').inorder := by
  cases d <;> simp [join, ha, hb]

/-- A rotation keeps the order of the values. -/
theorem inorder_rotate (d : Side) (c c' e e' : Color) (a : CTree α) (x : α)
    (b : CTree α) (y : α) (z : CTree α) :
    (join d c a x (join d c' b y z)).inorder =
      (join d e (join d e' a x b) y z).inorder := by
  cases d <;> simp [join]

theorem join_other (d : Side) (c : Color) (a : CTree α) (x : α) (b : CTree α) :
    join d.other c a x b = join d c b x a := by
  cases d <;> rfl

@[simp] theorem mem_inorder_join {d : Side} {c : Color} {a b : CTree α} {x y : α} :
    y ∈ (join d c a x b).inorder ↔ y ∈ a.inorder ∨ y = x ∨ y ∈ b.inorder := by
  cases d
  · simp [join]
  · simp only [join, inorder_node, List.mem_append, List.mem_cons]
    tauto

theorem nodup_inorder_join {d : Side} {c : Color} {a b : CTree α} {x : α} :
    (join d c a x b).inorder.Nodup ↔
      (x ∉ a.inorder ∧ x ∉ b.inorder ∧ a.inorder.Disjoint b.inorder) ∧
        a.inorder.Nodup ∧ b.inorder.Nodup := by
  cases d <;> simp only [join, inorder_node, List.nodup_append, List.nodup_cons,
    List.mem_cons, List.Disjoint] <;> grind

/-- Every node is a `join` on either side. -/
theorem exists_join (d : Side) {t : CTree α} (h : t ≠ nil) :
    ∃ c a x b, t = join d c a x b := by
  cases t with
  | nil => exact absurd rfl h
  | node c l x r =>
      cases d with
      | left => exact ⟨c, l, x, r, rfl⟩
      | right => exact ⟨c, r, x, l, rfl⟩

theorem ne_nil_of_red {t : CTree α} (h : t.rootColor = .red) : t ≠ nil := by
  rintro rfl
  cases h

/-- A red subtree, seen from side `d`. -/
theorem exists_join_red (d : Side) {t : CTree α} (h : t.rootColor = .red) :
    ∃ a x b, t = join d .red a x b := by
  obtain ⟨c, a, x, b, rfl⟩ := exists_join d (ne_nil_of_red h)
  obtain rfl : c = .red := by simpa using h
  exact ⟨a, x, b, rfl⟩

@[simp] theorem balanced_nil {n : Nat} : (nil : CTree α).Balanced n ↔ n = 0 := Iff.rfl

@[simp] theorem balanced_join_black {d : Side} {a b : CTree α} {x : α} {n : Nat} :
    (join d .black a x b).Balanced n ↔
      ∃ k, n = k + 1 ∧ a.Balanced k ∧ b.Balanced k := by
  cases d with
  | left => exact Iff.rfl
  | right => exact exists_congr fun k => and_congr_right fun _ => and_comm

@[simp] theorem balanced_join_red {d : Side} {a b : CTree α} {x : α} {n : Nat} :
    (join d .red a x b).Balanced n ↔
      a.rootColor = .black ∧ b.rootColor = .black ∧ a.Balanced n ∧ b.Balanced n := by
  cases d with
  | left => exact Iff.rfl
  | right =>
      show b.rootColor = .black ∧ a.rootColor = .black ∧ b.Balanced n ∧ a.Balanced n ↔ _
      tauto

/-- A black node over two subtrees of height `n` has height `n + 1`. -/
theorem balanced_black {d : Side} {a b : CTree α} {x : α} {n : Nat}
    (ha : a.Balanced n) (hb : b.Balanced n) : (join d .black a x b).Balanced (n + 1) :=
  balanced_join_black.mpr ⟨n, rfl, ha, hb⟩

theorem Balanced.of_black {d : Side} {a b : CTree α} {x : α} {n : Nat}
    (h : (join d .black a x b).Balanced (n + 1)) : a.Balanced n ∧ b.Balanced n := by
  obtain ⟨k, hk, ha, hb⟩ := balanced_join_black.mp h
  obtain rfl : k = n := by omega
  exact ⟨ha, hb⟩

/-- Blackening a red root adds one to the black height. -/
theorem Balanced.blacken {t : CTree α} {n : Nat} (h : t.Balanced n)
    (hr : t.rootColor = .red) : t.blacken.Balanced (n + 1) := by
  obtain ⟨a, x, b, rfl⟩ := exists_join_red .left hr
  obtain ⟨_, _, ha, hb⟩ := balanced_join_red.mp h
  rw [blacken_join]
  exact balanced_black ha hb

/-- A subtree of positive black height is not missing. -/
theorem Balanced.ne_nil {t : CTree α} {n : Nat} (h : t.Balanced (n + 1)) : t ≠ nil := by
  rintro rfl
  cases h

theorem Balanced.redBlack_blacken {t : CTree α} {n : Nat} (h : t.Balanced n) :
    t.blacken.RedBlack := by
  refine ⟨rootColor_blacken t, ?_⟩
  cases hc : t.rootColor with
  | black => exact ⟨n, by rw [blacken_of_black hc]; exact h⟩
  | red => exact ⟨n + 1, h.blacken hc⟩

/-- `Balanced` is the two textbook conditions together. -/
theorem balanced_iff (t : CTree α) (n : Nat) :
    t.Balanced n ↔ t.NoRedRed ∧ ∀ k ∈ t.pathBlacks, k = n := by
  induction t generalizing n with
  | nil => simp [NoRedRed, pathBlacks, eq_comm]
  | node c l x r ihl ihr =>
      cases c with
      | red =>
          simp only [Balanced, ihl, ihr, NoRedRed, pathBlacks, List.mem_append]
          grind
      | black =>
          -- every path starts with this black node, so the height is not zero
          have hne : l.pathBlacks ≠ [] := by
            clear ihl ihr
            induction l with
            | nil => simp [pathBlacks]
            | node c l' y r' ihl' _ => cases c <;> simp [pathBlacks, ihl']
          obtain ⟨j, hj⟩ := List.exists_mem_of_ne_nil _ hne
          simp only [Balanced, ihl, ihr, NoRedRed, pathBlacks, List.mem_map, List.mem_append]
          constructor
          · rintro ⟨k, rfl, ⟨hl, hlk⟩, hr, hrk⟩
            grind
          · rintro ⟨⟨_, hl, hr⟩, hk⟩
            have hjn : j + 1 = n := hk (j + 1) ⟨j, Or.inl hj, rfl⟩
            refine ⟨j, hjn.symm, ⟨hl, fun k hkl => ?_⟩, hr, fun k hkr => ?_⟩
            · have := hk (k + 1) ⟨k, Or.inl hkl, rfl⟩
              omega
            · have := hk (k + 1) ⟨k, Or.inr hkr, rfl⟩
              omega

theorem redBlack_iff (t : CTree α) :
    t.RedBlack ↔ t.rootColor = .black ∧ t.NoRedRed ∧ ∃ n, ∀ k ∈ t.pathBlacks, k = n := by
  simp only [RedBlack, balanced_iff]
  grind

/-! The height of a tree. -/

/-- The number of nodes on the longest way down. -/
def height : CTree α → Nat
  | nil => 0
  | node _ l _ r => max l.height r.height + 1

theorem height_le_length (t : CTree α) : t.height ≤ t.inorder.length := by
  induction t with
  | nil => exact Nat.le_refl 0
  | node c l x r ihl ihr =>
      simp only [height, inorder_node, List.length_append, List.length_cons]
      omega

/-- At most every other node on a way down is red. -/
theorem Balanced.height_le {t : CTree α} {n : Nat} (h : t.Balanced n) :
    t.height ≤ 2 * n + 1 ∧ (t.rootColor = .black → t.height ≤ 2 * n) := by
  induction t generalizing n with
  | nil => exact ⟨Nat.zero_le _, fun _ => Nat.zero_le _⟩
  | node c l x r ihl ihr =>
      cases c with
      | black =>
          obtain ⟨k, rfl, hl, hr⟩ := h
          have hl := (ihl hl).1
          have hr := (ihr hr).1
          simp only [height]
          exact ⟨by omega, fun _ => by omega⟩
      | red =>
          obtain ⟨hlb, hrb, hl, hr⟩ := h
          have hl := (ihl hl).2 hlb
          have hr := (ihr hr).2 hrb
          simp only [height]
          exact ⟨by omega, fun hc => by cases hc⟩

theorem Balanced.pow_le {t : CTree α} {n : Nat} (h : t.Balanced n) :
    2 ^ n ≤ t.inorder.length + 1 := by
  induction t generalizing n with
  | nil =>
      obtain rfl : n = 0 := h
      exact Nat.le_refl 1
  | node c l x r ihl ihr =>
      simp only [inorder_node, List.length_append, List.length_cons]
      cases c with
      | black =>
          obtain ⟨k, rfl, hl, hr⟩ := h
          have hl := ihl hl
          have hr := ihr hr
          rw [Nat.pow_succ]
          omega
      | red =>
          have hl := ihl h.2.2.1
          omega

/-- The height is logarithmic in the number of values. -/
theorem RedBlack.height_le {t : CTree α} (h : t.RedBlack) :
    t.height ≤ 2 * (t.inorder.length + 1).log2 := by
  obtain ⟨hblack, n, hn⟩ := h
  have hlog : n ≤ (t.inorder.length + 1).log2 :=
    (Nat.le_log2 (Nat.succ_ne_zero _)).mpr hn.pow_le
  have hheight := hn.height_le.2 hblack
  omega

end CTree

/-! ## Paths -/

/-- One step of a path: the hole is the child of `val` on side `side`. -/
structure Frame (α : Type) where
  side : Side
  color : Color
  val : α
  sibling : CTree α
  deriving DecidableEq, Repr

/-- The frames from a hole up to the root. -/
abbrev CPath (α : Type) := List (Frame α)

def Frame.plug (f : Frame α) (t : CTree α) : CTree α :=
  CTree.join f.side f.color t f.val f.sibling

/-- The whole tree with `t` in the hole of the path. -/
def fill : CPath α → CTree α → CTree α
  | [], t => t
  | f :: p, t => fill p (f.plug t)

namespace CPath

/-- The values to the left of the hole. -/
def before : CPath α → List α
  | [] => []
  | ⟨.left, _, _, _⟩ :: p => before p
  | ⟨.right, _, x, s⟩ :: p => before p ++ (s.inorder ++ [x])

/-- The values to the right of the hole. -/
def after : CPath α → List α
  | [] => []
  | ⟨.left, _, x, s⟩ :: p => x :: s.inorder ++ after p
  | ⟨.right, _, _, _⟩ :: p => after p

/-- All values on the path, from the hole up. -/
def vals : CPath α → List α
  | [] => []
  | f :: p => f.val :: f.sibling.inorder ++ vals p

/-- The colour above the hole. The place above the root counts as red: the
root must not be. -/
def topColor : CPath α → Color
  | [] => .red
  | f :: _ => f.color

/-- The path is red-black around a hole that expects `n` black nodes. -/
def Balanced : CPath α → Nat → Prop
  | [], _ => True
  | f :: p, n =>
      f.sibling.Balanced n ∧
        match f.color with
        | .black => Balanced p (n + 1)
        | .red => f.sibling.rootColor = .black ∧ topColor p = .black ∧ Balanced p n

@[simp] theorem topColor_cons (f : Frame α) (p : CPath α) :
    topColor (f :: p) = f.color := rfl

theorem balanced_nil (n : Nat) : Balanced ([] : CPath α) n := trivial

theorem balanced_cons_black {d : Side} {x : α} {s : CTree α} {p : CPath α} {n : Nat} :
    Balanced (⟨d, .black, x, s⟩ :: p) n ↔ s.Balanced n ∧ Balanced p (n + 1) := Iff.rfl

theorem balanced_cons_red {d : Side} {x : α} {s : CTree α} {p : CPath α} {n : Nat} :
    Balanced (⟨d, .red, x, s⟩ :: p) n ↔
      s.Balanced n ∧ s.rootColor = .black ∧ topColor p = .black ∧ Balanced p n := Iff.rfl

/-- The sibling of the hole has the black height that the hole is to have. -/
theorem Balanced.sibling {d : Side} {c : Color} {x : α} {s : CTree α} {p : CPath α} {n : Nat}
    (h : Balanced (⟨d, c, x, s⟩ :: p) n) : s.Balanced n := by
  cases c with
  | black => exact (balanced_cons_black.mp h).1
  | red => exact (balanced_cons_red.mp h).1

end CPath

/-- The values on a path do not matter to its balance. -/
theorem CPath.balanced_congr (p : CPath α) {q q' : CPath α} (htop : q.topColor = q'.topColor)
    (hq : ∀ n, Balanced q n ↔ Balanced q' n) (n : Nat) :
    Balanced (p ++ q) n ↔ Balanced (p ++ q') n := by
  induction p generalizing n with
  | nil => exact hq n
  | cons f p ih =>
      obtain ⟨d, c, x, s⟩ := f
      have htop' : topColor (p ++ q) = topColor (p ++ q') := by
        cases p with
        | nil => exact htop
        | cons g p => rfl
      cases c with
      | black => exact and_congr_right fun _ => ih (n + 1)
      | red =>
          simp only [List.cons_append, balanced_cons_red, ih, htop']

@[simp] theorem fill_nil (t : CTree α) : fill [] t = t := rfl

@[simp] theorem fill_cons (f : Frame α) (p : CPath α) (t : CTree α) :
    fill (f :: p) t = fill p (f.plug t) := rfl

theorem fill_append (p q : CPath α) (t : CTree α) : fill (p ++ q) t = fill q (fill p t) := by
  induction p generalizing t with
  | nil => rfl
  | cons f p ih => exact ih (f.plug t)

theorem inorder_fill (p : CPath α) (t : CTree α) :
    (fill p t).inorder = p.before ++ t.inorder ++ p.after := by
  induction p generalizing t with
  | nil => simp [CPath.before, CPath.after]
  | cons f p ih =>
      obtain ⟨d, c, x, s⟩ := f
      rw [fill_cons, ih]
      cases d <;> simp [Frame.plug, CTree.join, CPath.before, CPath.after]

/-- Two subtrees with the same values fill a hole to the same values. -/
theorem inorder_fill_congr {p : CPath α} {t t' : CTree α} (h : t.inorder = t'.inorder) :
    (fill p t).inorder = (fill p t').inorder := by
  rw [inorder_fill, inorder_fill, h]

@[simp] theorem CPath.vals_nil : CPath.vals ([] : CPath α) = [] := rfl

@[simp] theorem CPath.vals_cons (f : Frame α) (p : CPath α) :
    CPath.vals (f :: p) = f.val :: f.sibling.inorder ++ p.vals := rfl

theorem CPath.vals_append (p q : CPath α) : CPath.vals (p ++ q) = p.vals ++ q.vals := by
  induction p with
  | nil => rfl
  | cons f p ih => simp [ih]

theorem CTree.perm_inorder_join (d : Side) (c : Color) (a : CTree α) (x : α) (b : CTree α) :
    (join d c a x b).inorder.Perm (x :: (b.inorder ++ a.inorder)) := by
  cases d with
  | left => exact List.perm_middle.trans (List.perm_append_comm.cons x)
  | right => exact List.perm_middle

/-- A whole tree holds the values of the path and of the subtree. -/
theorem perm_inorder_fill (p : CPath α) (t : CTree α) :
    (fill p t).inorder.Perm (p.vals ++ t.inorder) := by
  induction p generalizing t with
  | nil => exact List.Perm.refl _
  | cons f p ih =>
      refine (ih (f.plug t)).trans ?_
      refine ((CTree.perm_inorder_join _ _ _ _ _).append_left (CPath.vals p)).trans ?_
      refine List.perm_middle.trans ?_
      rw [CPath.vals_cons, List.cons_append, List.cons_append, ← List.append_assoc]
      exact (List.perm_append_comm.append_right _).cons _

theorem mem_fill {p : CPath α} {t : CTree α} {y : α} (h : y ∈ t.inorder) :
    y ∈ (fill p t).inorder := by
  rw [inorder_fill]
  simp [h]

theorem length_path_le (p : CPath α) (t : CTree α) :
    p.length + t.inorder.length ≤ (fill p t).inorder.length := by
  induction p generalizing t with
  | nil => simp
  | cons f p ih =>
      have hplug : t.inorder.length + 1 ≤ (f.plug t).inorder.length := by
        obtain ⟨d, c, x, s⟩ := f
        cases d <;> simp [Frame.plug, CTree.join]
      have := ih (f.plug t)
      rw [fill_cons, List.length_cons]
      omega

@[simp] theorem Frame.mem_inorder_plug {f : Frame α} {t : CTree α} {y : α} :
    y ∈ (f.plug t).inorder ↔ y ∈ t.inorder ∨ y = f.val ∨ y ∈ f.sibling.inorder :=
  CTree.mem_inorder_join

@[simp] theorem mem_fill_iff {p : CPath α} {t : CTree α} {y : α} :
    y ∈ (fill p t).inorder ↔ y ∈ p.vals ∨ y ∈ t.inorder := by
  rw [(perm_inorder_fill p t).mem_iff, List.mem_append]

theorem CTree.inorder_erase [DecidableEq α] {c : Color} {l r : CTree α} {x : α}
    (hl : x ∉ l.inorder) : (node c l x r).inorder.erase x = l.inorder ++ r.inorder := by
  rw [inorder_node, List.erase_append_right _ hl, List.erase_cons_head]

/-- Erasing a value below the hole. -/
theorem inorder_fill_erase [DecidableEq α] {p : CPath α} {t : CTree α} {x : α}
    (hp : x ∉ p.vals) (ht : x ∈ t.inorder) :
    (fill p t).inorder.erase x = p.before ++ t.inorder.erase x ++ p.after := by
  have hbefore : x ∉ p.before := fun hx => hp (by
    have := (perm_inorder_fill p .nil).mem_iff (a := x)
    simpa [inorder_fill, hx] using this)
  rw [inorder_fill, List.append_assoc, List.erase_append_right _ hbefore,
    List.erase_append_left _ ht, List.append_assoc]

/-- Every value of a tree is the root of a subtree in some hole. -/
theorem exists_fill {t : CTree α} {x : α} (h : x ∈ t.inorder) :
    ∃ p c l r, t = fill p (.node c l x r) := by
  induction t with
  | nil => simp at h
  | node c l y r ihl ihr =>
      rw [CTree.inorder_node, List.mem_append, List.mem_cons] at h
      rcases h with h | rfl | h
      · obtain ⟨p, c', l', r', rfl⟩ := ihl h
        exact ⟨p ++ [⟨.left, c, y, r⟩], c', l', r', by rw [fill_append]; rfl⟩
      · exact ⟨[], c, l, r, rfl⟩
      · obtain ⟨p, c', l', r', rfl⟩ := ihr h
        exact ⟨p ++ [⟨.right, c, y, l⟩], c', l', r', by rw [fill_append]; rfl⟩

theorem CPath.before_of_left {p : CPath α} (h : ∀ f ∈ p, f.side = .left) : p.before = [] := by
  induction p with
  | nil => rfl
  | cons f p ih =>
      obtain ⟨d, c, x, s⟩ := f
      obtain rfl : d = .left := h ⟨d, c, x, s⟩ (by simp)
      exact ih fun f hf => h f (by simp [hf])

/-- The path to the missing subtree where a new value belongs: left of the
values that `go` selects. -/
def CTree.slot (go : α → Bool) : CTree α → CPath α → CPath α
  | .nil, p => p
  | .node c l x r, p =>
      if go x then l.slot go (⟨.left, c, x, r⟩ :: p) else r.slot go (⟨.right, c, x, l⟩ :: p)

theorem fill_slot (go : α → Bool) (t : CTree α) (p : CPath α) :
    fill (t.slot go p) .nil = fill p t := by
  induction t generalizing p with
  | nil => rfl
  | node c l x r ihl ihr =>
      unfold CTree.slot
      split
      · exact ihl _
      · exact ihr _

/-- In a sorted tree the slot has the values not selected before it and the
selected ones after it. -/
theorem slot_sorted (go : α → Bool) {t : CTree α} (p : CPath α)
    (h : t.inorder.Pairwise fun x y => go x → go y) :
    (t.slot go p).before = p.before ++ t.inorder.filter (fun x => !go x) ∧
      (t.slot go p).after = t.inorder.filter go ++ p.after := by
  induction t generalizing p with
  | nil => simp [CTree.slot]
  | node c l x r ihl ihr =>
      simp only [CTree.inorder_node, List.pairwise_append, List.pairwise_cons, List.mem_cons] at h
      obtain ⟨hl, ⟨hx, hr⟩, hlx⟩ := h
      unfold CTree.slot
      cases hgo : go x with
      | true =>
          have hrn : r.inorder.filter (fun x => !go x) = [] := by
            simpa using fun y hy => hx y hy hgo
          have hrg : r.inorder.filter go = r.inorder := by
            simpa using fun y hy => hx y hy hgo
          obtain ⟨hb, ha⟩ := ihl (⟨.left, c, x, r⟩ :: p) hl
          simp [hb, ha, CPath.before, CPath.after, hgo, hrn, hrg]
      | false =>
          have hlf : ∀ y ∈ l.inorder, go y = false := fun y hy => by
            by_contra hc
            simp [hlx y hy x (Or.inl rfl) (by simpa using hc)] at hgo
          have hln : l.inorder.filter (fun x => !go x) = l.inorder := by
            simpa using hlf
          have hlg : l.inorder.filter go = [] := by
            simpa using hlf
          obtain ⟨hb, ha⟩ := ihr (⟨.right, c, x, l⟩ :: p) hr
          simp [hb, ha, CPath.before, CPath.after, hgo, hln, hlg]

/-- The red-black condition, split at a hole. -/
theorem redBlack_fill (p : CPath α) (t : CTree α) :
    (fill p t).RedBlack ↔
      ∃ n, p.Balanced n ∧ t.Balanced n ∧ (t.rootColor = .red → p.topColor = .black) := by
  induction p generalizing t with
  | nil =>
      simp only [fill_nil, CTree.RedBlack, CPath.topColor, CPath.Balanced]
      cases t.rootColor <;> simp
  | cons f p ih =>
      obtain ⟨d, c, x, s⟩ := f
      rw [fill_cons, ih]
      cases c with
      | black =>
          simp only [Frame.plug, CTree.balanced_join_black, CTree.rootColor_join,
            CPath.balanced_cons_black, CPath.topColor_cons]
          grind
      | red =>
          simp only [Frame.plug, CTree.balanced_join_red, CTree.rootColor_join,
            CPath.balanced_cons_red, CPath.topColor_cons]
          cases t.rootColor <;> grind

end Lib
