import DataStructures.Lib.Traversals
import DataStructures.Tree.Binary.Shape

/-!
# The recursive functions

`orderPrint_spec`: the recursion prints a tree of nodes in the order it puts the parts together in,
whatever a node is.  So the recursive prints are in pre-order, in-order and post-order, and the
recursive depth is the height.
-/

namespace DataStructures.BinaryTree

open Lib LevelOrder Traversals

variable {N D : Type} {left right : N → Ptr} {data : N → D} {m : Memory N} {h : Heap}
  {nodes : BinaryTree (Nat × N)} {depth : Nat} {root : Ptr} {t : Tree}

/-- The pointer to the root of a tree of nodes. -/
def rootPtr : BinaryTree (Nat × N) → Ptr
  | .nil => none
  | .node n _ _ => some n.1

/-- The nodes are stored, and each points to the ones below it. -/
def Threaded (left right : N → Ptr) (m : Memory N) : BinaryTree (Nat × N) → Prop
  | .nil => True
  | .node n l r => m.cells n.1 = some n.2 ∧ left n.2 = rootPtr l ∧ right n.2 = rootPtr r ∧
      Threaded left right m l ∧ Threaded left right m r

/-- **The recursion prints the whole tree**; `out` is the order it prints in. -/
theorem orderPrint_spec {order : D → List D → List D → List D} (out : BinaryTree D → List D)
    (hnil : out .nil = []) (hnode : ∀ a l r, out (.node a l r) = order a (out l) (out r))
    (ht : Threaded left right m nodes) (hd : nodes.height < depth) :
    orderPrint left right data order m depth (rootPtr nodes) =
      some (out (nodes.map (fun n => data n.2))) := by
  induction nodes generalizing depth with
  | nil =>
    obtain ⟨depth, rfl⟩ := Nat.exists_eq_add_of_lt hd
    rw [BinaryTree.map, hnil]
    rfl
  | node n l r ihl ihr =>
    cases depth with
    | zero => exact absurd hd (Nat.not_lt_zero _)
    | succ depth =>
      rw [BinaryTree.height] at hd
      obtain ⟨hcell, hleft, hright, htl, htr⟩ := ht
      have hload : m.load (some n.1) = some n.2 := hcell
      have hl := ihl htl (show l.height < depth by omega)
      have hr := ihr htr (show r.height < depth by omega)
      rw [rootPtr, orderPrint, hload, Option.bind_eq_bind, Option.bind_some, hleft, hright, hl, hr,
        BinaryTree.map, hnode]
      rfl

theorem rootPtr_stored (t : Tree) : rootPtr (stored t) = ptr t := by
  cases t with
  | nil => rfl
  | node n l r => rfl

theorem threaded_stored (hn : ∀ n ∈ levelOrder (stored t), h.cells n.1 = some n.2) :
    Threaded BinaryTreeNode.left BinaryTreeNode.right h (stored t) := by
  induction t with
  | nil => trivial
  | node n l r ihl ihr =>
    obtain ⟨hroot, hl, hr⟩ := forall_mem_levelOrder_node.mp hn
    refine ⟨hroot, ?_, ?_, ihl hl, ihr hr⟩
    · rw [rootPtr_stored]
      rfl
    · rw [rootPtr_stored]
      rfl

theorem height_stored (t : Tree) : (stored t).height = t.height := by
  rw [← height_map Prod.fst, map_fst_stored, height_map]

/-- What a recursive print prints. -/
theorem Spans.orderPrint (hs : Spans h root t) {order : Int → List Int → List Int → List Int}
    (out : BinaryTree Int → List Int) (hnil : out .nil = [])
    (hnode : ∀ a l r, out (.node a l r) = order a (out l) (out r)) :
    orderPrint BinaryTreeNode.left BinaryTreeNode.right BinaryTreeNode.data order h (levels h) root =
      some (out (t.map Prod.snd)) := by
  have hd : (stored t).height < levels h := by
    rw [height_stored]
    exact hs.height_lt
  rw [hs.root, ← rootPtr_stored, orderPrint_spec out hnil hnode (threaded_stored hs.node) hd,
    map_data_stored]

theorem binaryTreeInOrderPrint_spec (hs : Spans h root t) :
    binaryTreeInOrderPrint h root = some (inOrder (t.map Prod.snd)) :=
  hs.orderPrint inOrder rfl (fun _ _ _ => rfl)

theorem binaryTreePreOrderPrint_spec (hs : Spans h root t) :
    binaryTreePreOrderPrint h root = some (preOrder (t.map Prod.snd)) :=
  hs.orderPrint preOrder rfl (fun _ _ _ => rfl)

theorem binaryTreePostOrderPrint_spec (hs : Spans h root t) :
    binaryTreePostOrderPrint h root = some (postOrder (t.map Prod.snd)) :=
  hs.orderPrint postOrder rfl (fun _ _ _ => rfl)

/-- **The recursive depth is the height**, if that is an `int`. -/
theorem binaryTreeDepthRecursive_spec {s : Tree} (hn : ∀ n ∈ levelOrder (stored s), h.cells n.1 = some n.2)
    (hd : s.height < depth) (hint : (s.height : Int) ≤ intMax) :
    binaryTreeDepthRecursive depth h (ptr s) = some (s.height : Int) := by
  induction s generalizing depth with
  | nil =>
    obtain ⟨depth, rfl⟩ := Nat.exists_eq_add_of_lt hd
    rfl
  | node n l r ihl ihr =>
    cases depth with
    | zero => exact absurd hd (Nat.not_lt_zero _)
    | succ depth =>
      rw [BinaryTree.height] at hd hint
      obtain ⟨hroot, hnl, hnr⟩ := forall_mem_levelOrder_node.mp hn
      have hload : h.load (some n.1) = some (nodeOf (.node n l r)).2 := hroot
      have hl := ihl hnl (show l.height < depth by omega) (by omega)
      have hr := ihr hnr (show r.height < depth by omega) (by omega)
      have hmax : (max (l.height : Int) r.height) + 1 = (BinaryTree.node n l r).height := by
        rw [BinaryTree.height]
        omega
      rw [ptr, binaryTreeDepthRecursive, hload, Option.bind_eq_bind, Option.bind_some, nodeOf, hl, hr]
      simp only [Option.bind_eq_bind, Option.bind_some]
      rw [hmax, toInt_of]
      rw [BinaryTree.height]
      omega

end DataStructures.BinaryTree
