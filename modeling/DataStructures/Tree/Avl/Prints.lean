import DataStructures.Lib.Traversals
import DataStructures.Tree.Avl.LevelOrder
import DataStructures.Tree.Avl.SortedSet
import DataStructures.Tree.Binary.Recursion

/-!
# Printing an AVL tree in depth-first orders

`avl_tree_in_order_print` prints in in-order (`avlTreeInOrderPrint_spec`).  `avl_tree_pre_order_print` and
`avl_tree_post_order_print` print the subtrees of the root in in-order too.  So what they print is in
pre-order or post-order if it makes no difference below the root: `avlTreePrints_iff`.
-/

namespace DataStructures.Avl

open Lib Outcomes LevelOrder Traversals

variable {K : Type}

/-- `__avl_tree_in_order_print`. -/
def avlTreeInOrderPrintHelper (m : Heap K) (depth : Nat) (node : Ptr) : Option (List (Option K)) :=
  BinaryTree.orderPrint AvlTreeNode.left AvlTreeNode.right AvlTreeNode.data
    (fun data left right => left ++ data :: right) m depth node

/-- A print that calls `__avl_tree_in_order_print` on the subtrees; `order` puts together the node's datum
and what is printed of them. -/
def subtreesPrint (order : Option K → List (Option K) → List (Option K) → List (Option K)) (m : Heap K)
    (depth : Nat) : Ptr → Option (List (Option K))
  | none => some []
  | some a => do
      let node ← m.load (some a)
      let left ← avlTreeInOrderPrintHelper m depth node.left
      let right ← avlTreeInOrderPrintHelper m depth node.right
      return order node.data left right

/-- `__avl_tree_pre_order_print`. -/
def avlTreePreOrderPrintHelper : Heap K → Nat → Ptr → Option (List (Option K)) :=
  subtreesPrint (fun data left right => data :: (left ++ right))

/-- `__avl_tree_post_order_print`. -/
def avlTreePostOrderPrintHelper : Heap K → Nat → Ptr → Option (List (Option K)) :=
  subtreesPrint (fun data left right => left ++ right ++ [data])

/-- A print of the tree of an entry, by `helper`. -/
def printEntry (helper : Heap K → Nat → Ptr → Option (List (Option K))) (entry : AvlTreeEntry K) :
    Option (Printed K) :=
  if entry.root.isNone then some (.text "AVL Tree is empty!\n")
  else do
    let printed ← helper entry.mem entry.depth entry.root
    return .data printed

/-- `avl_tree_in_order_print`. -/
def avlTreeInOrderPrint (entry : AvlTreeEntry K) : Option (Printed K) :=
  printEntry avlTreeInOrderPrintHelper entry

/-- `avl_tree_pre_order_print`. -/
def avlTreePreOrderPrint (entry : AvlTreeEntry K) : Option (Printed K) :=
  printEntry avlTreePreOrderPrintHelper entry

/-- `avl_tree_post_order_print`. -/
def avlTreePostOrderPrint (entry : AvlTreeEntry K) : Option (Printed K) :=
  printEntry avlTreePostOrderPrintHelper entry

/-- The data that the callback has been called with. -/
def Printed.visited : Printed K → List (Option K)
  | .text _ => []
  | .data l => l

/-- The data of the nodes. -/
def Tree.values (t : Tree K) : BinaryTree (Option K) := t.nodes.map (fun n => n.2.data)

/-- What is printed are the data in this order. -/
def Visits (print : AvlTreeEntry K → Option (Printed K)) (order : BinaryTree (Option K) → List (Option K))
    (entry : AvlTreeEntry K) (t : Tree K) : Prop :=
  ∃ printed, print entry = some printed ∧ printed.visited = order t.values

variable {m : Heap K} {c : Comparison K} {entry : AvlTreeEntry K} {a : Nat} {d : K} {t l r : Tree K} {i : Int}
  {depth : Nat}

theorem Tree.values_node (a : Nat) (d : K) (l r : Tree K) (i : Int) :
    (Tree.node a d l r i).values = .node (some d) l.values r.values := rfl

theorem Tree.rootPtr_nodes (t : Tree K) : BinaryTree.rootPtr t.nodes = t.ptr := by
  cases t with
  | nil => rfl
  | node a d l r i => rfl

theorem Tree.height_nodes (t : Tree K) : t.nodes.height = t.depth := by
  induction t with
  | nil => rfl
  | node a d l r i ihl ihr => rw [Tree.nodes, BinaryTree.height, ihl, ihr, Tree.depth, Nat.add_comm]

theorem Holds.threaded (hh : Holds m t) :
    BinaryTree.Threaded AvlTreeNode.left AvlTreeNode.right m t.nodes := by
  induction t with
  | nil => trivial
  | node a d l r i ihl ihr =>
    obtain ⟨hm, hl, hr⟩ := hh
    exact ⟨hm, (Tree.rootPtr_nodes l).symm, (Tree.rootPtr_nodes r).symm, ihl hl, ihr hr⟩

/-- **The in-order helper prints a subtree in in-order.** -/
theorem inOrderHelper_spec (hh : Holds m t) (hd : t.depth < depth) :
    avlTreeInOrderPrintHelper m depth t.ptr = some (inOrder t.values) := by
  rw [← Tree.rootPtr_nodes]
  exact BinaryTree.orderPrint_spec inOrder rfl (fun _ _ _ => rfl) hh.threaded
    (by rwa [Tree.height_nodes])

theorem subtreesPrint_node {f : Option K → List (Option K) → List (Option K) → List (Option K)}
    (hh : Holds m (.node a d l r i)) (hd : (Tree.node a d l r i).depth < depth) :
    subtreesPrint f m depth (some a) =
      some (f (some d) (inOrder l.values) (inOrder r.values)) := by
  obtain ⟨hm, hl, hr⟩ := hh
  have hload : m.load (some a) = some ⟨some d, l.ptr, r.ptr, i⟩ := hm
  rw [Tree.depth] at hd
  rw [subtreesPrint, hload, Option.bind_eq_bind, Option.bind_some, inOrderHelper_spec hl (by omega),
    inOrderHelper_spec hr (by omega)]
  rfl

/-- The elements in in-order. -/
theorem inOrder_values (t : Tree K) : inOrder t.values = t.toList.map some := by
  induction t with
  | nil => rfl
  | node a d l r i ihl ihr =>
    rw [Tree.values_node, inOrder, ihl, ihr, Tree.toList, List.map_append, List.map_cons]

/-- No element of an AVL tree is repeated. -/
theorem nodup_values (hs : Sorted c t.toList) : (inOrder t.values).Nodup := by
  rw [inOrder_values, List.nodup_map_iff (fun _ _ h => Option.some.inj h)]
  refine List.Pairwise.imp (fun {x y} hxy => ?_) hs
  rintro rfl
  rw [c.self] at hxy
  exact absurd hxy (Int.lt_irrefl 0)

/-- **What a print of a tree that is not empty visits.** -/
theorem visits_node {f : Option K → List (Option K) → List (Option K) → List (Option K)}
    {order : BinaryTree (Option K) → List (Option K)} (hd : Denotes c entry (.node a d l r i)) :
    Visits (printEntry (subtreesPrint f)) order entry (.node a d l r i) ↔
      f (some d) (inOrder l.values) (inOrder r.values) = order (.node (some d) l.values r.values) := by
  have hroot : entry.root = some a := hd.root
  have hrun : printEntry (subtreesPrint f) entry =
      some (.data (f (some d) (inOrder l.values) (inOrder r.values))) := by
    rw [printEntry, hroot, Option.isNone_some, if_neg Bool.false_ne_true,
      subtreesPrint_node hd.holds hd.depth_lt]
    rfl
  rw [Visits, hrun, Tree.values_node]
  constructor
  · rintro ⟨printed, hp, hv⟩
    rw [← Option.some.inj hp] at hv
    exact hv
  · intro h
    exact ⟨_, rfl, h⟩

/-- **In-order, in its place** is the order that is asked for, or what is printed is not in order. -/
theorem append_inOrder_iff {u v : BinaryTree (Option K)} {f : BinaryTree (Option K) → List (Option K)}
    (hf : ∀ u, (f u).Perm (levelOrder u)) :
    inOrder u ++ inOrder v = f u ++ f v ↔ inOrder u = f u ∧ inOrder v = f v := by
  have hlen : (inOrder u).length = (f u).length := ((inOrder_perm u).trans (hf u).symm).length_eq
  constructor
  · intro h
    exact List.append_inj h hlen
  · rintro ⟨hu, hv⟩
    rw [← hu, ← hv]

theorem preOrderPrint_node (hd : Denotes c entry (.node a d l r i)) :
    Visits avlTreePreOrderPrint preOrder entry (.node a d l r i) ↔
      inOrder l.values = preOrder l.values ∧ inOrder r.values = preOrder r.values := by
  rw [← append_inOrder_iff preOrder_perm]
  refine (visits_node hd).trans ?_
  rw [preOrder, List.cons_inj_right]

theorem postOrderPrint_node (hd : Denotes c entry (.node a d l r i)) :
    Visits avlTreePostOrderPrint postOrder entry (.node a d l r i) ↔
      inOrder l.values = postOrder l.values ∧ inOrder r.values = postOrder r.values := by
  rw [← append_inOrder_iff postOrder_perm]
  refine (visits_node hd).trans ?_
  rw [postOrder, List.append_left_inj]

/-- An empty tree has a text printed, and nothing visited. -/
theorem visits_nil {helper : Heap K → Nat → Ptr → Option (List (Option K))}
    {order : BinaryTree (Option K) → List (Option K)} (hd : Denotes c entry .nil) (ho : order .nil = []) :
    Visits (printEntry helper) order entry .nil := by
  have hroot : entry.root = none := hd.root
  refine ⟨.text "AVL Tree is empty!\n", ?_, ho.symm⟩
  rw [printEntry, hroot, Option.isNone_none, if_pos rfl]

/-- **The in-order print is in order**, in every AVL tree. -/
theorem avlTreeInOrderPrint_spec (hd : Denotes c entry t) : Visits avlTreeInOrderPrint inOrder entry t := by
  cases t with
  | nil => exact visits_nil hd rfl
  | node a d l r i =>
    refine ⟨.data (inOrder (Tree.node a d l r i).values), ?_, rfl⟩
    rw [avlTreeInOrderPrint, printEntry, hd.root, Tree.ptr_node, Option.isNone_some,
      if_neg Bool.false_ne_true, ← Tree.ptr_node a d l r i, inOrderHelper_spec hd.holds hd.depth_lt]
    rfl

/-- **The prints of an AVL tree are in pre-order and in post-order only in small trees.**  On every AVL tree,
`avl_tree_pre_order_print` visits the elements in pre-order if and only if no node below the root has a left
child, `avl_tree_post_order_print` visits them in post-order if and only if none has a right child; so both
are right if and only if the tree has two levels at most. -/
theorem avlTreePrints_iff (c : Comparison K) (entry : AvlTreeEntry K) (t : Tree K) (hd : Denotes c entry t) :
    (Visits avlTreePreOrderPrint preOrder entry t ↔
      ∀ s ∈ (levelOrder (subtrees t.values)).tail, s.left = .nil) ∧
    (Visits avlTreePostOrderPrint postOrder entry t ↔
      ∀ s ∈ (levelOrder (subtrees t.values)).tail, s.right = .nil) ∧
    (Visits avlTreePreOrderPrint preOrder entry t ∧ Visits avlTreePostOrderPrint postOrder entry t ↔
      t.depth ≤ 2) := by
  cases t with
  | nil =>
    have hpre : Visits avlTreePreOrderPrint preOrder entry .nil := visits_nil hd rfl
    have hpost : Visits avlTreePostOrderPrint postOrder entry .nil := visits_nil hd rfl
    exact ⟨⟨fun _ _ hs => absurd hs List.not_mem_nil, fun _ => hpre⟩,
      ⟨fun _ _ hs => absurd hs List.not_mem_nil, fun _ => hpost⟩,
      fun _ => Nat.zero_le 2, fun _ => ⟨hpre, hpost⟩⟩
  | node a d l r i =>
    have hnd := nodup_values hd.avl.sorted
    rw [Tree.values_node, nodup_inOrder_node] at hnd
    obtain ⟨hl, hr, -⟩ := hnd
    have hpre : Visits avlTreePreOrderPrint preOrder entry (.node a d l r i) ↔
        ∀ s ∈ (levelOrder (subtrees (Tree.node a d l r i).values)).tail, s.left = .nil := by
      rw [preOrderPrint_node hd, Tree.values_node, forall_tail_subtrees, inOrder_eq_preOrder_iff hl,
        inOrder_eq_preOrder_iff hr]
    have hpost : Visits avlTreePostOrderPrint postOrder entry (.node a d l r i) ↔
        ∀ s ∈ (levelOrder (subtrees (Tree.node a d l r i).values)).tail, s.right = .nil := by
      rw [postOrderPrint_node hd, Tree.values_node, forall_tail_subtrees, inOrder_eq_postOrder_iff hl,
        inOrder_eq_postOrder_iff hr]
    refine ⟨hpre, hpost, ?_⟩
    have hheight : ∀ u : Tree K, u.values.height = u.depth := by
      intro u
      rw [Tree.values, LevelOrder.height_map, Tree.height_nodes]
    rw [hpre, hpost, ← forall₂_and, Tree.values_node, forall_tail_subtrees, ← height_le_one_iff,
      ← height_le_one_iff, hheight, hheight, Tree.depth]
    omega

theorem avlTreePrints_iff_fiveEntry :
    (Visits avlTreePreOrderPrint preOrder fiveEntry fiveTree ↔
      ∀ s ∈ (levelOrder (subtrees fiveTree.values)).tail, s.left = .nil) ∧
    (Visits avlTreePostOrderPrint postOrder fiveEntry fiveTree ↔
      ∀ s ∈ (levelOrder (subtrees fiveTree.values)).tail, s.right = .nil) ∧
    (Visits avlTreePreOrderPrint preOrder fiveEntry fiveTree ∧
      Visits avlTreePostOrderPrint postOrder fiveEntry fiveTree ↔ fiveTree.depth ≤ 2) :=
  avlTreePrints_iff intComparison fiveEntry fiveTree
    ⟨rfl, stands_fiveTree.holds, stands_fiveTree.nodup, stands_fiveTree.avl⟩

/-- The tree of `4, 2, 6, 1, 3`. -/
def threeLevels : Tree Int :=
  .node 0 4 (.node 1 2 (.node 3 1 .nil .nil 1) (.node 4 3 .nil .nil 1) 2) (.node 2 6 .nil .nil 1) 3

theorem isAvl_threeLevels : IsAvl intComparison threeLevels := by
  refine ⟨?_, ?_, ?_⟩
  · show Sorted intComparison [1, 2, 3, 4, 6]
    unfold Sorted
    decide
  · exact ⟨rfl, ⟨rfl, ⟨rfl, trivial, trivial⟩, rfl, trivial, trivial⟩, rfl, trivial, trivial⟩
  · simp [threeLevels, Tree.Balanced, Tree.depth]

/-- **With three levels the subtrees are printed in in-order**, on the tree of `4, 2, 6, 1, 3`. -/
theorem avlTreePrints_wrong : ∃ entry : AvlTreeEntry Int,
    Run intComparison (fun _ _ => True) entry [1, 2, 3, 4, 6] ∧ Denotes intComparison entry threeLevels ∧
      avlTreePreOrderPrint entry = some (.data [some 4, some 1, some 2, some 3, some 6]) ∧
      preOrder threeLevels.values = [some 4, some 2, some 1, some 3, some 6] ∧
      avlTreePostOrderPrint entry = some (.data [some 1, some 2, some 3, some 6, some 4]) ∧
      postOrder threeLevels.values = [some 1, some 3, some 2, some 6, some 4] ∧
      ¬ Visits avlTreePreOrderPrint preOrder entry threeLevels ∧
      ¬ Visits avlTreePostOrderPrint postOrder entry threeLevels := by
  refine ⟨_, .insert (.insert (.insert (.insert (.insert (.create rfl)
    (show avlTreeInsert intComparison _ (some 4) = some (0, _) from rfl))
    (show avlTreeInsert intComparison _ (some 2) = some (0, _) from rfl))
    (show avlTreeInsert intComparison _ (some 6) = some (0, _) from rfl))
    (show avlTreeInsert intComparison _ (some 1) = some (0, _) from rfl))
    (show avlTreeInsert intComparison _ (some 3) = some (0, _) from rfl),
    ⟨rfl, ?_, by decide, isAvl_threeLevels⟩, rfl, rfl, rfl, rfl, ?_, ?_⟩
  · exact ⟨rfl, ⟨rfl, ⟨rfl, trivial, trivial⟩, rfl, trivial, trivial⟩, rfl, trivial, trivial⟩
  · rintro ⟨printed, hp, hv⟩
    rw [← Option.some.inj hp] at hv
    exact absurd hv (by decide)
  · rintro ⟨printed, hp, hv⟩
    rw [← Option.some.inj hp] at hv
    exact absurd hv (by decide)

end DataStructures.Avl
