import DataStructures.Lib.LevelOrder

/-!
# Depth-first orders of a binary tree

`preOrder`, `inOrder` and `postOrder` list the values of a tree.  Each has the same values as level
order (`preOrder_perm`, `inOrder_perm`, `postOrder_perm`).

* `mirror_postOrder`: the reverse of post-order is the pre-order of the mirrored tree.
* `inOrder_eq_preOrder_iff`, `inOrder_eq_postOrder_iff`: of different values, in-order is pre-order if no
  node has a left child, and post-order if none has a right child.
-/

namespace DataStructures.Lib.Traversals

open LevelOrder

variable {A B : Type}

/-- The root, the left subtree, the right subtree. -/
def preOrder : BinaryTree A → List A
  | .nil => []
  | .node a l r => a :: (preOrder l ++ preOrder r)

/-- The left subtree, the root, the right subtree. -/
def inOrder : BinaryTree A → List A
  | .nil => []
  | .node a l r => inOrder l ++ a :: inOrder r

/-- The left subtree, the right subtree, the root. -/
def postOrder : BinaryTree A → List A
  | .nil => []
  | .node a l r => postOrder l ++ postOrder r ++ [a]

/-- The tree with left and right exchanged. -/
def mirror : BinaryTree A → BinaryTree A
  | .nil => .nil
  | .node a l r => .node a (mirror r) (mirror l)

variable {t l r : BinaryTree A} {a : A}

@[simp] theorem postOrder_map (f : A → B) (t : BinaryTree A) : postOrder (t.map f) = (postOrder t).map f := by
  induction t with
  | nil => rfl
  | node a l r ihl ihr => simp only [BinaryTree.map, postOrder, ihl, ihr, List.map_append, List.map_singleton]

/-- **In-order has the value of each node once.** -/
theorem inOrder_perm (t : BinaryTree A) : (inOrder t).Perm (levelOrder t) := by
  induction t with
  | nil => rfl
  | node a l r ihl ihr =>
    rw [inOrder]
    exact List.perm_middle.trans (((ihl.append ihr).cons a).trans (levelOrder_node_perm a l r).symm)

theorem postOrder_perm (t : BinaryTree A) : (postOrder t).Perm (levelOrder t) := by
  induction t with
  | nil => rfl
  | node a l r ihl ihr =>
    rw [postOrder]
    exact (List.perm_append_singleton _ _).trans
      (((ihl.append ihr).cons a).trans (levelOrder_node_perm a l r).symm)

/-- The reverse of post-order goes to the right first. -/
theorem mirror_postOrder (t : BinaryTree A) : (postOrder t).reverse = preOrder (mirror t) := by
  induction t with
  | nil => rfl
  | node a l r ihl ihr =>
    rw [postOrder, List.reverse_append, List.reverse_append, ihl, ihr, mirror, preOrder]
    rfl

@[simp] theorem length_inOrder (t : BinaryTree A) : (inOrder t).length = t.numNodes := by
  rw [(inOrder_perm t).length_eq, length_levelOrder]

theorem preOrder_perm (t : BinaryTree A) : (preOrder t).Perm (levelOrder t) := by
  induction t with
  | nil => rfl
  | node a l r ihl ihr =>
    rw [preOrder]
    exact ((ihl.append ihr).cons a).trans (levelOrder_node_perm a l r).symm

/-- What holds of all subtrees. -/
theorem forall_subtrees_node {P : BinaryTree A → Prop} : (∀ s ∈ levelOrder (subtrees (.node a l r)), P s) ↔
    P (.node a l r) ∧ (∀ s ∈ levelOrder (subtrees l), P s) ∧ ∀ s ∈ levelOrder (subtrees r), P s := by
  rw [subtrees]
  exact forall_mem_levelOrder_node

/-- What holds of all subtrees but the whole tree. -/
theorem forall_tail_subtrees {P : BinaryTree A → Prop} :
    (∀ s ∈ (levelOrder (subtrees (.node a l r))).tail, P s) ↔
      (∀ s ∈ levelOrder (subtrees l), P s) ∧ ∀ s ∈ levelOrder (subtrees r), P s := by
  have hperm := levelOrder_node_perm (BinaryTree.node a l r) (subtrees l) (subtrees r)
  rw [levelOrder_node] at hperm
  rw [subtrees, levelOrder_node, List.tail_cons]
  simp only [hperm.cons_inv.mem_iff, List.mem_append, or_imp, forall_and]

theorem nodup_inOrder_node : (inOrder (.node a l r)).Nodup ↔
    (inOrder l).Nodup ∧ (inOrder r).Nodup ∧ a ∉ inOrder l ∧ a ∉ inOrder r ∧
      ∀ b ∈ inOrder l, ∀ c ∈ inOrder r, b ≠ c := by
  rw [inOrder, List.nodup_append, List.nodup_cons]
  simp only [List.mem_cons, forall_eq_or_imp]
  constructor
  · rintro ⟨hl, ⟨har, hr⟩, hne⟩
    exact ⟨hl, hr, fun ha => (hne a ha).1 rfl, har, fun b hb => (hne b hb).2⟩
  · rintro ⟨hl, hr, hal, har, hne⟩
    exact ⟨hl, ⟨har, hr⟩, fun b hb => ⟨fun hba => hal (hba ▸ hb), hne b hb⟩⟩

/-- **In-order is pre-order** if no node has a left child. -/
theorem inOrder_eq_preOrder_iff (hnd : (inOrder t).Nodup) :
    inOrder t = preOrder t ↔ ∀ s ∈ levelOrder (subtrees t), s.left = .nil := by
  induction t with
  | nil => exact ⟨fun _ _ hs => absurd hs List.not_mem_nil, fun _ => rfl⟩
  | node a l r _ ihr =>
    obtain ⟨-, hr, hal, -, -⟩ := nodup_inOrder_node.mp hnd
    rw [forall_subtrees_node, ← ihr hr, BinaryTree.left, inOrder, preOrder]
    cases l with
    | nil =>
      rw [inOrder, preOrder, List.nil_append, List.nil_append, List.cons_inj_right]
      exact ⟨fun h => ⟨rfl, fun _ hs => absurd hs List.not_mem_nil, h⟩, fun h => h.2.2⟩
    | node b u w =>
      refine ⟨fun h => ?_, fun h => absurd h.1 (fun hn => by cases hn)⟩
      -- the first value would be that of the root
      obtain ⟨y, rest, hl⟩ : ∃ y rest, inOrder (.node b u w) = y :: rest := by
        rw [inOrder]
        exact List.exists_cons_of_ne_nil (List.append_ne_nil_of_right_ne_nil _ (List.cons_ne_nil _ _))
      rw [hl, List.cons_append, List.cons.injEq] at h
      obtain ⟨rfl, -⟩ := h
      exact absurd (hl ▸ List.mem_cons_self) hal

theorem inOrder_mirror (t : BinaryTree A) : inOrder (mirror t) = (inOrder t).reverse := by
  induction t with
  | nil => rfl
  | node a l r ihl ihr =>
    rw [mirror, inOrder, ihl, ihr, inOrder, List.reverse_append, List.reverse_cons, List.append_assoc]
    rfl

@[simp] theorem mirror_mirror (t : BinaryTree A) : mirror (mirror t) = t := by
  induction t with
  | nil => rfl
  | node a l r ihl ihr => rw [mirror, mirror, ihl, ihr]

/-- The reverse of pre-order goes to the right first. -/
theorem mirror_preOrder (t : BinaryTree A) : (preOrder t).reverse = postOrder (mirror t) := by
  have hpost := mirror_postOrder (mirror t)
  rw [mirror_mirror] at hpost
  rw [← hpost, List.reverse_reverse]

theorem mirror_eq_nil : mirror t = .nil ↔ t = .nil := by
  cases t with
  | nil => exact Iff.rfl
  | node a l r => exact ⟨nofun, nofun⟩

/-- Left children of the mirrored tree are right children. -/
theorem forall_left_mirror : (∀ s ∈ levelOrder (subtrees (mirror t)), s.left = .nil) ↔
    ∀ s ∈ levelOrder (subtrees t), s.right = .nil := by
  induction t with
  | nil => exact ⟨fun _ _ hs => absurd hs List.not_mem_nil, fun _ _ hs => absurd hs List.not_mem_nil⟩
  | node a l r ihl ihr =>
    rw [mirror, forall_subtrees_node, forall_subtrees_node, ihl, ihr, BinaryTree.left, BinaryTree.right,
      mirror_eq_nil, and_comm (a := ∀ s ∈ levelOrder (subtrees r), _)]

/-- **In-order is post-order** if no node has a right child. -/
theorem inOrder_eq_postOrder_iff (hnd : (inOrder t).Nodup) :
    inOrder t = postOrder t ↔ ∀ s ∈ levelOrder (subtrees t), s.right = .nil := by
  have hnd' : (inOrder (mirror t)).Nodup := by rwa [inOrder_mirror, List.nodup_reverse]
  rw [← forall_left_mirror, ← inOrder_eq_preOrder_iff hnd', inOrder_mirror, ← mirror_postOrder]
  exact List.reverse_inj.symm

/-- Without children there is one level at most. -/
theorem height_le_one_iff : t.height ≤ 1 ↔
    ∀ s ∈ levelOrder (subtrees t), s.left = .nil ∧ s.right = .nil := by
  cases t with
  | nil => exact ⟨fun _ _ hs => absurd hs List.not_mem_nil, fun _ => Nat.zero_le _⟩
  | node a l r =>
    rw [forall_subtrees_node, BinaryTree.height]
    constructor
    · intro h
      have hnil : ∀ u : BinaryTree A, u.height ≤ 0 → u = .nil := by
        intro u hu
        cases u with
        | nil => rfl
        | node => exact absurd hu (Nat.not_succ_le_zero _)
      obtain rfl := hnil l (by omega)
      obtain rfl := hnil r (by omega)
      exact ⟨⟨rfl, rfl⟩, fun _ hs => absurd hs List.not_mem_nil, fun _ hs => absurd hs List.not_mem_nil⟩
    · rintro ⟨⟨hl, hr⟩, -, -⟩
      rw [BinaryTree.left] at hl
      rw [BinaryTree.right] at hr
      rw [hl, hr]
      exact Nat.le_refl 1

end DataStructures.Lib.Traversals
