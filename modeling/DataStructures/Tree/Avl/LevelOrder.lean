import DataStructures.Tree.Avl.Shape
import DataStructures.Tree.Binary.Traversal

/-!
# Printing an AVL tree in level order

`avl_tree_level_order_print`, with the queue of the binary tree's functions; so it prints the trees
that have no more nodes than the queue has slots.
-/

namespace DataStructures.Avl

open Lib LevelOrder

variable {K : Type}

/-- What is printed: a text, or data by the callback. -/
inductive Printed (K : Type)
  | text (s : String)
  | data (l : List (Option K))

/-- `__avl_tree_level_order_print`. -/
def avlTreeLevelOrderPrintHelper (m : Heap K) (node : Ptr) : Option (List (Option K)) :=
  BinaryTree.levelOrderPrint AvlTreeNode.left AvlTreeNode.right AvlTreeNode.data m node

/-- `avl_tree_level_order_print`. -/
def avlTreeLevelOrderPrint (entry : AvlTreeEntry K) : Option (Printed K) :=
  if entry.root.isNone then some (.text "AVL Tree is empty!\n")
  else do
    let printed ← avlTreeLevelOrderPrintHelper entry.mem entry.root
    return .data printed

/-- The tree of the nodes as they are stored. -/
def Tree.nodes : Tree K → BinaryTree (Nat × AvlTreeNode K)
  | nil => .nil
  | node a d l r h => .node (a, ⟨some d, l.ptr, r.ptr, h⟩) l.nodes r.nodes

variable {m : Heap K} {t : Tree K} {entry : AvlTreeEntry K}

theorem Tree.roots_nodes (t : Tree K) : roots t.nodes = t.ptr.toList := by
  cases t with
  | nil => rfl
  | node a d l r h => rfl

theorem Tree.numNodes_nodes (t : Tree K) : t.nodes.numNodes = t.addrs.length := by
  induction t with
  | nil => rfl
  | node a d l r h ihl ihr =>
    rw [Tree.nodes, BinaryTree.numNodes, ihl, ihr, addrs, List.length_cons, List.length_append]

theorem Holds.linked (hh : Holds m t) :
    Linked m.cells (BinaryTree.below AvlTreeNode.left AvlTreeNode.right) t.nodes := by
  induction t with
  | nil => trivial
  | node a d l r h ihl ihr =>
    obtain ⟨hm, hl, hr⟩ := hh
    refine ⟨hm, ?_, ihl hl, ihr hr⟩
    rw [Tree.roots_nodes, Tree.roots_nodes]

/-- **An AVL tree is printed** if it has no more nodes than the queue has slots. -/
theorem avlTreeLevelOrderPrint_isSome (hroot : entry.root = t.ptr) (hh : Holds entry.mem t)
    (ho : entry.mem.outcomes = .allOk) :
    (avlTreeLevelOrderPrint entry).isSome ↔ t.addrs.length ≤ 128 := by
  have hspec := BinaryTree.levelOrderPrint_spec AvlTreeNode.data (p := entry.root) hh.linked
    (by rw [hroot, Tree.roots_nodes]) ho
  rw [Tree.numNodes_nodes] at hspec
  rw [avlTreeLevelOrderPrint, avlTreeLevelOrderPrintHelper, hspec]
  cases t with
  | nil =>
    rw [hroot]
    exact ⟨fun _ => Nat.zero_le _, fun _ => rfl⟩
  | node a d l r h =>
    rw [hroot, Tree.ptr_node, Option.isNone_some, if_neg Bool.false_ne_true]
    by_cases hle : (Tree.node a d l r h).addrs.length ≤ 128
    · rw [if_pos hle]
      exact ⟨fun _ => hle, fun _ => rfl⟩
    · rw [if_neg hle]
      exact ⟨fun h => absurd h Bool.false_ne_true, fun hle' => absurd hle' hle⟩

end DataStructures.Avl
