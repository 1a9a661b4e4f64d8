import DataStructures.Lib.Rebuild
import DataStructures.Tree.Binary.Depth
import DataStructures.Tree.Binary.Problems

/-!
# Duplicates and mirrors

The two functions go through both trees at once (`compareTrees_spec`): the second tree is read as it is, or
from the right to the left.

* `areDuplicate_exact`: the trees are equal; if no datum is repeated, it is enough that the in-order print
  and the print in level order are.
* `areMirror_exact`: one tree is the mirror image of the other, and what is printed of one is what is printed of
  the other, backwards.
-/

namespace DataStructures.BinaryTree

open Lib LevelOrder Traversals Rebuild

variable {h : Heap} {r1 r2 root : Ptr} {t s l r : Tree} {depth : Nat}
  {first second : BinaryTreeNode → Ptr}

/-- The shape and the data. -/
def shape (t : Tree) : BinaryTree Int := t.map Prod.snd

/-- Which children of the second tree are compared with the left and the right one of the first, and the tree
that the second one is read as. -/
structure ReadAs (first second : BinaryTreeNode → Ptr) (f g : Tree → Tree → Tree)
    (out : Tree → BinaryTree Int) : Prop where
  first : ∀ n l r, first (nodeOf (.node n l r)).2 = ptr (f l r)
  second : ∀ n l r, second (nodeOf (.node n l r)).2 = ptr (g l r)
  both : ∀ l r, f l r = l ∧ g l r = r ∨ f l r = r ∧ g l r = l
  nil : out .nil = .nil
  node : ∀ n l r, out (.node n l r) = .node n.2 (out (f l r)) (out (g l r))

theorem readAs_shape :
    ReadAs BinaryTreeNode.left BinaryTreeNode.right (fun l _ => l) (fun _ r => r) shape :=
  ⟨fun _ _ _ => rfl, fun _ _ _ => rfl, fun _ _ => Or.inl ⟨rfl, rfl⟩, rfl, fun _ _ _ => rfl⟩

theorem readAs_mirror : ReadAs BinaryTreeNode.right BinaryTreeNode.left (fun _ r => r) (fun l _ => l)
    (fun t => mirror (shape t)) :=
  ⟨fun _ _ _ => rfl, fun _ _ _ => rfl, fun _ _ => Or.inr ⟨rfl, rfl⟩, rfl, fun _ _ _ => rfl⟩

/-- **The comparison** of a tree with another one. -/
theorem compareTrees_spec {f g : Tree → Tree → Tree} {out : Tree → BinaryTree Int}
    (ho : ReadAs first second f g out) (ht : ∀ n ∈ levelOrder (stored t), h.cells n.1 = some n.2)
    (hs : ∀ n ∈ levelOrder (stored s), h.cells n.1 = some n.2) (hd : t.height < depth) :
    compareTrees first second h depth (ptr t) (ptr s) = some (decide (shape t = out s)) := by
  induction t generalizing s depth with
  | nil =>
    obtain ⟨depth, rfl⟩ := Nat.exists_eq_add_of_lt hd
    cases s with
    | nil => exact congrArg some (decide_eq_true ho.nil.symm).symm
    | node m l r =>
      refine congrArg some (decide_eq_false ?_).symm
      rw [ho.node]
      exact nofun
  | node n l r ihl ihr =>
    cases depth with
    | zero => exact absurd hd (Nat.not_lt_zero _)
    | succ depth =>
      rw [BinaryTree.height] at hd
      obtain ⟨hroot, hnl, hnr⟩ := forall_mem_levelOrder_node.mp ht
      cases s with
      | nil =>
        refine congrArg some (decide_eq_false ?_).symm
        rw [ho.nil]
        exact nofun
      | node m l' r' =>
        obtain ⟨hroot', hl', hr'⟩ := forall_mem_levelOrder_node.mp hs
        have hload : h.load (some n.1) = some (nodeOf (.node n l r)).2 := hroot
        have hload' : h.load (some m.1) = some (nodeOf (.node m l' r')).2 := hroot'
        have hstored : (∀ k ∈ levelOrder (stored (f l' r')), h.cells k.1 = some k.2) ∧
            ∀ k ∈ levelOrder (stored (g l' r')), h.cells k.1 = some k.2 := by
          rcases ho.both l' r' with ⟨hf, hg⟩ | ⟨hf, hg⟩
          · rw [hf, hg]
            exact ⟨hl', hr'⟩
          · rw [hf, hg]
            exact ⟨hr', hl'⟩
        have hleft := ihl hnl hstored.1 (show l.height < depth by omega)
        have hright := ihr hnr hstored.2 (show r.height < depth by omega)
        have hshape : shape (.node n l r) = .node n.2 (shape l) (shape r) := rfl
        rw [ptr, ptr, compareTrees, hload, hload', Option.bind_eq_bind, Option.bind_some,
          Option.bind_some, ho.first, ho.second, hshape, ho.node]
        simp only [nodeOf, hleft, hright, BinaryTree.node.injEq]
        by_cases hdata : n.2 = m.2
        · by_cases hsame : shape l = out (f l' r')
          · simp [hdata, hsame]
          · simp [hdata, hsame]
        · simp [hdata]

/-! ### What is answered -/

theorem areDuplicate_eq (h1 : Spans h r1 t) (h2 : Spans h r2 s) :
    binaryTreeAreDuplicate h r1 r2 = some (decide (shape t = shape s)) := by
  rw [h1.root, h2.root]
  exact compareTrees_spec readAs_shape h1.node h2.node h1.height_lt

theorem areMirror_eq (h1 : Spans h r1 t) (h2 : Spans h r2 s) :
    binaryTreeAreMirror h r1 r2 = some (decide (shape t = mirror (shape s))) := by
  rw [h1.root, h2.root]
  exact compareTrees_spec readAs_mirror h1.node h2.node h1.height_lt

/-- **`binary_tree_are_duplicate` is exact.**  If no datum is repeated, the in-order print and the print in
level order tell as much. -/
theorem areDuplicate_exact (h1 : Spans h r1 t) (h2 : Spans h r2 s) :
    ∃ b, binaryTreeAreDuplicate h r1 r2 = some b ∧ (b = true ↔ shape t = shape s) ∧
      ((inOrder (shape t)).Nodup → t.numNodes ≤ 128 → s.numNodes ≤ 128 → h.outcomes.Succeed 2 →
        (b = true ↔ binaryTreeInOrderPrint h r1 = binaryTreeInOrderPrint h r2 ∧
          binaryTreeLevelOrderPrint h r1 = binaryTreeLevelOrderPrint h r2)) := by
  refine ⟨_, areDuplicate_eq h1 h2, decide_eq_true_iff, fun hnd ht hs ho => ?_⟩
  rw [decide_eq_true_iff, binaryTreeInOrderPrint_spec h1, binaryTreeInOrderPrint_spec h2,
    (levelOrderPrint_outcomes h1 ht).1 ho, (levelOrderPrint_outcomes h2 hs).1 ho, Option.some.injEq,
    Option.some.injEq]
  refine ⟨fun heq => ⟨congrArg inOrder heq, congrArg levelOrder heq⟩, ?_⟩
  rintro ⟨hin, hlvl⟩
  exact eq_of_orders hnd hin hlvl

/-- A root with a left child. -/
def leftTwig : Tree := .node (0, 1) (.node (1, 2) .nil .nil) .nil

/-- A root with a right child. -/
def rightTwig : Tree := .node (2, 1) .nil (.node (3, 2) .nil .nil)

/-- The memory that holds both. -/
def twigs : Heap :=
  (((((Memory.empty .allOk).malloc ⟨1, some 1, none⟩).2.malloc ⟨2, none, none⟩).2.malloc
    ⟨1, none, some 3⟩).2.malloc ⟨2, none, none⟩).2

theorem spans_leftTwig : Spans twigs (some 0) leftTwig := by
  refine ⟨rfl, fun n hn => ?_, by decide⟩
  have hlist : levelOrder (stored leftTwig) = [(0, ⟨1, some 1, none⟩), (1, ⟨2, none, none⟩)] := rfl
  rw [hlist, List.mem_cons, List.mem_singleton] at hn
  rcases hn with rfl | rfl <;> rfl

theorem spans_rightTwig : Spans twigs (some 2) rightTwig := by
  refine ⟨rfl, fun n hn => ?_, by decide⟩
  have hlist : levelOrder (stored rightTwig) = [(2, ⟨1, none, some 3⟩), (3, ⟨2, none, none⟩)] := rfl
  rw [hlist, List.mem_cons, List.mem_singleton] at hn
  rcases hn with rfl | rfl <;> rfl

theorem areDuplicate_exact_twigs : ∃ b, binaryTreeAreDuplicate twigs (some 0) (some 2) = some b ∧
    (b = true ↔ shape leftTwig = shape rightTwig) ∧
    (b = true ↔ binaryTreeInOrderPrint twigs (some 0) = binaryTreeInOrderPrint twigs (some 2) ∧
      binaryTreeLevelOrderPrint twigs (some 0) = binaryTreeLevelOrderPrint twigs (some 2)) := by
  obtain ⟨b, hb, hiff, hprints⟩ := areDuplicate_exact spans_leftTwig spans_rightTwig
  exact ⟨b, hb, hiff, hprints (by decide) (by decide) (by decide) (Outcomes.succeed_allOk 2)⟩

/-- **`binary_tree_is_foldable`** asks whether the tree is its own mirror image. -/
theorem isFoldable_eq (hs : Spans h root t) :
    binaryTreeIsFoldable h root = binaryTreeAreMirror h root root := by
  rw [areMirror_eq hs hs, hs.root]
  cases t with
  | nil => rfl
  | node n l r =>
    obtain ⟨hroot, hnl, hnr⟩ := forall_mem_levelOrder_node.mp hs.node
    have hload : h.load (some n.1) = some ⟨n.2, ptr l, ptr r⟩ := hroot
    have hheight := hs.height_lt
    rw [BinaryTree.height] at hheight
    have hcompare := compareTrees_spec readAs_mirror hnl hnr (show l.height < levels h by omega)
    rw [ptr, binaryTreeIsFoldable, hload]
    refine hcompare.trans (congrArg some (decide_eq_decide.mpr ?_))
    have hshape : shape (.node n l r) = .node n.2 (shape l) (shape r) := rfl
    rw [hshape, mirror, BinaryTree.node.injEq]
    refine ⟨fun heq => ⟨rfl, heq, ?_⟩, fun heq => heq.2.1⟩
    rw [heq, mirror_mirror]

/-- **`binary_tree_are_mirror` is exact**, and what is printed of mirrored trees is the same, backwards; a tree
is foldable if it is mirrored to itself, and the trees that one tree is mirrored to are duplicates. -/
theorem areMirror_exact (h1 : Spans h r1 t) (h2 : Spans h r2 s) :
    (∃ b, binaryTreeAreMirror h r1 r2 = some b ∧ (b = true ↔ shape t = mirror (shape s)) ∧
      binaryTreeAreMirror h r2 r1 = some b ∧
      (b = true → binaryTreeInOrderPrint h r1 = (binaryTreeInOrderPrint h r2).map List.reverse ∧
        binaryTreePreOrderPrint h r1 = (binaryTreePostOrderPrint h r2).map List.reverse ∧
        binaryTreePostOrderPrint h r1 = (binaryTreePreOrderPrint h r2).map List.reverse)) ∧
    binaryTreeIsFoldable h r1 = binaryTreeAreMirror h r1 r1 ∧
    ∀ r3 u, Spans h r3 u → binaryTreeAreMirror h r1 r2 = some true →
      binaryTreeAreMirror h r2 r3 = binaryTreeAreDuplicate h r1 r3 := by
  refine ⟨⟨_, areMirror_eq h1 h2, decide_eq_true_iff, ?_, fun hb => ?_⟩, isFoldable_eq h1, ?_⟩
  · rw [areMirror_eq h2 h1]
    refine congrArg some (decide_eq_decide.mpr ⟨fun heq => ?_, fun heq => ?_⟩)
    · rw [heq, mirror_mirror]
    · rw [heq, mirror_mirror]
  · have heq : shape t = mirror (shape s) := of_decide_eq_true hb
    rw [binaryTreeInOrderPrint_spec h1, binaryTreeInOrderPrint_spec h2, binaryTreePreOrderPrint_spec h1,
      binaryTreePreOrderPrint_spec h2, binaryTreePostOrderPrint_spec h1, binaryTreePostOrderPrint_spec h2]
    rw [shape] at heq
    rw [heq, inOrder_mirror, ← mirror_postOrder, ← mirror_preOrder]
    exact ⟨rfl, rfl, rfl⟩
  · intro r3 u h3 hb
    rw [areMirror_eq h1 h2, Option.some.injEq, decide_eq_true_iff] at hb
    rw [areMirror_eq h2 h3, areDuplicate_eq h1 h3, hb]
    refine congrArg some (decide_eq_decide.mpr ⟨fun heq => ?_, fun heq => ?_⟩)
    · rw [heq, mirror_mirror]
    · rw [← heq, mirror_mirror]

theorem areMirror_exact_twigs :
    (∃ b, binaryTreeAreMirror twigs (some 0) (some 2) = some b ∧
      (b = true ↔ shape leftTwig = mirror (shape rightTwig)) ∧
      binaryTreeAreMirror twigs (some 2) (some 0) = some b ∧
      (b = true →
        binaryTreeInOrderPrint twigs (some 0) = (binaryTreeInOrderPrint twigs (some 2)).map List.reverse ∧
        binaryTreePreOrderPrint twigs (some 0) =
          (binaryTreePostOrderPrint twigs (some 2)).map List.reverse ∧
        binaryTreePostOrderPrint twigs (some 0) =
          (binaryTreePreOrderPrint twigs (some 2)).map List.reverse)) ∧
    binaryTreeIsFoldable twigs (some 0) = binaryTreeAreMirror twigs (some 0) (some 0) ∧
    ∀ r3 u, Spans twigs r3 u → binaryTreeAreMirror twigs (some 0) (some 2) = some true →
      binaryTreeAreMirror twigs (some 2) r3 = binaryTreeAreDuplicate twigs (some 0) r3 :=
  areMirror_exact spans_leftTwig spans_rightTwig

end DataStructures.BinaryTree
