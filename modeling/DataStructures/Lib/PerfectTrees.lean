import Mathlib.Algebra.Group.Nat.Defs
import Mathlib.Data.Tree.Basic
import Mathlib.Tactic.Common

/-!
# Perfect binary trees

`Filled t k`: every path of `t` is `k` nodes long.  Among the trees that are no higher than `k`
these are the ones with the most nodes, `2 ^ k - 1` of them (`filled_iff`).

`Perfect t` is the definition by the nodes: each has two children or none, and all leaves are at
one depth.  It comes to the same (`perfect_iff`).
-/

namespace DataStructures.Lib

variable {A : Type} {t l r : BinaryTree A} {a : A} {j k : Nat}

/-- Every path from the root is `k` nodes long. -/
def Filled : BinaryTree A → Nat → Prop
  | .nil, k => k = 0
  | .node _ _ _, 0 => False
  | .node _ l r, k + 1 => Filled l k ∧ Filled r k

/-- Each node has two children or none. -/
def NoOnlyChild : BinaryTree A → Prop
  | .nil => True
  | .node _ l r => (l = .nil ↔ r = .nil) ∧ NoOnlyChild l ∧ NoOnlyChild r

/-- There is a leaf at the depth, the root being at depth 0. -/
def LeafAt : BinaryTree A → Nat → Prop
  | .nil, _ => False
  | .node _ l r, 0 => l = .nil ∧ r = .nil
  | .node _ l r, k + 1 => LeafAt l k ∨ LeafAt r k

/-- **A perfect tree**: each node has two children or none, and all leaves are at one depth. -/
structure Perfect (t : BinaryTree A) : Prop where
  children : NoOnlyChild t
  leaves : ∀ j k, LeafAt t j → LeafAt t k → j = k

/-! ### The number of nodes -/

/-- **A tree has fewer than `2 ^ k` nodes** if it is no higher than `k`. -/
theorem numNodes_lt_two_pow (h : t.height ≤ k) : t.numNodes < 2 ^ k := by
  induction t generalizing k with
  | nil => exact Nat.two_pow_pos k
  | node a l r ihl ihr =>
    rw [BinaryTree.height] at h
    obtain ⟨k, rfl⟩ := Nat.exists_eq_add_of_le' (show 1 ≤ k by omega)
    have hl := ihl (k := k) (by omega)
    have hr := ihr (k := k) (by omega)
    rw [BinaryTree.numNodes, Nat.pow_succ]
    omega

theorem Filled.height_eq (h : Filled t k) : t.height = k := by
  induction t generalizing k with
  | nil => exact h.symm
  | node a l r ihl ihr =>
    cases k with
    | zero => exact h.elim
    | succ k =>
      rw [BinaryTree.height, ihl h.1, ihr h.2, Nat.max_self]

/-- **The trees with the most nodes are the filled ones.**  A tree that is no higher than `k` has
`2 ^ k - 1` nodes exactly when it is filled: a subtree can make up for no node that the other
one lacks. -/
theorem filled_iff (h : t.height ≤ k) : Filled t k ↔ t.numNodes = 2 ^ k - 1 := by
  induction t generalizing k with
  | nil =>
    rw [Filled, BinaryTree.numNodes]
    constructor
    · rintro rfl
      rfl
    · intro h0
      by_contra hk
      have := Nat.one_lt_two_pow hk
      omega
  | node a l r ihl ihr =>
    rw [BinaryTree.height] at h
    obtain ⟨k, rfl⟩ := Nat.exists_eq_add_of_le' (show 1 ≤ k by omega)
    have hl : l.height ≤ k := by omega
    have hr : r.height ≤ k := by omega
    have hlt := numNodes_lt_two_pow hl
    have hrt := numNodes_lt_two_pow hr
    rw [Filled, ihl hl, ihr hr, BinaryTree.numNodes, Nat.pow_succ]
    omega

/-! ### Leaves -/

theorem filled_zero : Filled t 0 ↔ t = .nil := by
  cases t with
  | nil => exact ⟨fun _ => rfl, fun _ => rfl⟩
  | node a l r => exact ⟨fun h => h.elim, fun h => by cases h⟩

/-- A tree that is not empty has a leaf. -/
theorem exists_leafAt (h : t ≠ .nil) : ∃ k, LeafAt t k := by
  induction t with
  | nil => exact absurd rfl h
  | node a l r ihl ihr =>
    by_cases hl : l = .nil
    · by_cases hr : r = .nil
      · exact ⟨0, hl, hr⟩
      · obtain ⟨k, hk⟩ := ihr hr
        exact ⟨k + 1, Or.inr hk⟩
    · obtain ⟨k, hk⟩ := ihl hl
      exact ⟨k + 1, Or.inl hk⟩

theorem Filled.noOnlyChild (h : Filled t k) : NoOnlyChild t := by
  induction t generalizing k with
  | nil => trivial
  | node a l r ihl ihr =>
    cases k with
    | zero => exact h.elim
    | succ k =>
      obtain ⟨hl, hr⟩ := h
      refine ⟨⟨?_, ?_⟩, ihl hl, ihr hr⟩
      · rintro rfl
        obtain rfl : k = 0 := hl
        exact filled_zero.mp hr
      · rintro rfl
        obtain rfl : k = 0 := hr
        exact filled_zero.mp hl

theorem Filled.leafAt (h : Filled t k) (hj : LeafAt t j) : j + 1 = k := by
  induction t generalizing j k with
  | nil => exact hj.elim
  | node a l r ihl ihr =>
    cases k with
    | zero => exact h.elim
    | succ k =>
      cases j with
      | zero =>
        obtain ⟨rfl, rfl⟩ := hj
        rw [show k = 0 from h.1]
      | succ j =>
        rcases hj with hj | hj
        · rw [ihl h.1 hj]
        · rw [ihr h.2 hj]

/-- All leaves of the tree at one depth: the tree is filled. -/
theorem filled_of_leaves (hc : NoOnlyChild t) (hne : t ≠ .nil) (hall : ∀ j, LeafAt t j → j = k) :
    Filled t (k + 1) := by
  induction t generalizing k with
  | nil => exact absurd rfl hne
  | node a l r ihl ihr =>
    obtain ⟨hiff, hcl, hcr⟩ := hc
    by_cases hl : l = .nil
    · have hr := hiff.mp hl
      obtain rfl : 0 = k := hall 0 ⟨hl, hr⟩
      rw [hl, hr]
      exact ⟨rfl, rfl⟩
    · have hr : r ≠ .nil := fun hr => hl (hiff.mpr hr)
      obtain ⟨j, hj⟩ := exists_leafAt hl
      obtain rfl : j + 1 = k := hall (j + 1) (Or.inl hj)
      exact ⟨ihl hcl hl (fun i hi => Nat.succ.inj (hall (i + 1) (Or.inl hi))),
        ihr hcr hr (fun i hi => Nat.succ.inj (hall (i + 1) (Or.inr hi)))⟩

/-- **Perfect trees are the filled ones.** -/
theorem perfect_iff : Perfect t ↔ Filled t t.height := by
  constructor
  · intro h
    by_cases hne : t = .nil
    · rw [hne]
      exact rfl
    · obtain ⟨k, hk⟩ := exists_leafAt hne
      have hf := filled_of_leaves h.children hne (fun j hj => h.leaves j k hj hk)
      rwa [hf.height_eq]
  · intro h
    refine ⟨h.noOnlyChild, fun j k hj hk => ?_⟩
    have := h.leafAt hj
    have := h.leafAt hk
    omega

end DataStructures.Lib
