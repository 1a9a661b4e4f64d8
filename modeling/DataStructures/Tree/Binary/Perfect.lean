import DataStructures.Lib.PerfectTrees
import DataStructures.Tree.Binary.Depth
import DataStructures.Tree.Binary.EarlyExit

/-!
# Perfect trees

`binary_tree_is_perfect` compares the depth of each leaf with the depth of the tree, which it has
from the traversal in level order.  So it answers whether every path is as long as that
(`binaryTreeIsPerfectHelper_spec`), and with `Lib.filled_iff` whether the tree has as many nodes
as a tree of this height can have.
-/

namespace DataStructures.BinaryTree

open Lib LevelOrder

variable {h : Heap} {root : Ptr} {t : Tree}

/-- **The recursion compares the lengths of the paths**, `crtDepth` being the depth of the root. -/
theorem binaryTreeIsPerfectHelper_spec {s : Tree} (hs : s ≠ .nil)
    (hn : ∀ n ∈ levelOrder (stored s), h.cells n.1 = some n.2) {depth : Nat} (hd : s.height ≤ depth)
    (treeDepth crtDepth : Int) :
    ∃ b, binaryTreeIsPerfectHelper h depth (ptr s) treeDepth crtDepth = some b ∧
      (b = true ↔ ∃ k : Nat, treeDepth = crtDepth + k ∧ Filled s (k + 1)) := by
  induction s generalizing depth crtDepth with
  | nil => exact absurd rfl hs
  | node n l r ihl ihr =>
    rw [BinaryTree.height] at hd
    obtain ⟨depth, rfl⟩ := Nat.exists_eq_add_of_le' (show 1 ≤ depth by omega)
    obtain ⟨hroot, hnl, hnr⟩ := forall_mem_levelOrder_node.mp hn
    have hload : h.load (some n.1) = some ⟨n.2, ptr l, ptr r⟩ := hroot
    rw [ptr, binaryTreeIsPerfectHelper, binaryTreeNodeIsLeaf, hload]
    simp only [Option.bind_eq_bind, Option.bind_some]
    rcases eq_or_ne l .nil with rfl | hl
    · cases r with
      | nil =>
        refine ⟨_, rfl, beq_iff_eq.trans ?_⟩
        constructor
        · intro he
          exact ⟨0, by rw [he, Int.natCast_zero, Int.add_zero], rfl, rfl⟩
        · rintro ⟨k, he, hk⟩
          obtain rfl : k = 0 := hk.1
          rw [he, Int.natCast_zero, Int.add_zero]
      | node =>
        refine ⟨false, rfl, iff_of_false Bool.false_ne_true ?_⟩
        rintro ⟨k, -, hk⟩
        cases hk.noOnlyChild.1.mp rfl
    · rcases eq_or_ne r .nil with rfl | hr
      · cases l with
        | nil => exact absurd rfl hl
        | node =>
          refine ⟨false, rfl, iff_of_false Bool.false_ne_true ?_⟩
          rintro ⟨k, -, hk⟩
          cases hk.noOnlyChild.1.mpr rfl
      · have hdl : l.height ≤ depth := by omega
        have hdr : r.height ≤ depth := by omega
        obtain ⟨b, hb, hbl⟩ := ihl hl hnl hdl (crtDepth + 1)
        obtain ⟨c, hc, hcr⟩ := ihr hr hnr hdr (crtDepth + 1)
        refine ⟨b && c, ?_, ?_⟩
        · cases b with
          | true => simp [isNone_ptr hl, isNone_ptr hr, hb, hc]
          | false => simp [isNone_ptr hl, isNone_ptr hr, hb]
        · rw [Bool.and_eq_true, hbl, hcr]
          constructor
          · rintro ⟨⟨j, hj, hfl⟩, ⟨k, hk, hfr⟩⟩
            obtain rfl : j = k := by omega
            exact ⟨j + 1, by omega, hfl, hfr⟩
          · rintro ⟨k, he, hfl, hfr⟩
            cases k with
            | zero => exact absurd (filled_zero.mp hfl) hl
            | succ k => exact ⟨⟨k, by omega, hfl⟩, ⟨k, by omega, hfr⟩⟩

/-- **`binary_tree_is_perfect` is exact.**  On a tree of one to 128 nodes, if no allocation is
refused, it returns true exactly when the tree has `2 ^ h - 1` nodes, its depth being `h`, and
exactly when each node has two children or none and all leaves are at one depth.  If one is
refused, an assertion fails. -/
theorem binaryTreeIsPerfect_exact (hs : Spans h root t) (ht : t ≠ .nil) (hsize : t.numNodes ≤ 128) :
    (h.outcomes.Succeed 2 → ∃ (b : Bool) (k n : Nat), binaryTreeIsPerfect h root = some b ∧
      binaryTreeDepthIterative h root = some (k : Int) ∧
      binaryTreeSize (levels h) h root = some (n : Int) ∧
      (b = true ↔ n = 2 ^ k - 1) ∧ (b = true ↔ Perfect t)) ∧
    (¬ h.outcomes.Succeed 2 → binaryTreeIsPerfect h root = none) := by
  have hroot : root.isNone = false := by rw [hs.root, isNone_ptr ht]
  obtain ⟨hiter, hrefused⟩ := depthIterative_outcomes hs ht hsize
  rw [binaryTreeIsPerfect, hroot, if_neg Bool.false_ne_true]
  refine ⟨fun ho => ?_, fun ho => ?_⟩
  · have hcount : binaryTreeSize (levels h) h root = some (t.numNodes : Int) := by
      have hmax : intMax = 2147483647 := rfl
      rw [hs.root, binaryTreeSize_spec hs.node hs.height_lt, if_pos (by omega)]
    obtain ⟨b, hb, hfilled⟩ := binaryTreeIsPerfectHelper_spec ht hs.node
      (Nat.le_of_lt hs.height_lt) (t.height : Int) 1
    have hpos : 0 < t.height := by
      cases t with
      | nil => exact absurd rfl ht
      | node n l r => exact Nat.succ_pos _
    have hiff : b = true ↔ Filled t t.height := by
      rw [hfilled]
      constructor
      · rintro ⟨k, he, hk⟩
        rwa [hk.height_eq]
      · intro hf
        exact ⟨t.height - 1, by omega, by rwa [Nat.sub_add_cancel hpos]⟩
    rw [hiter ho, Option.bind_eq_bind, Option.bind_some, hs.root, hb]
    rw [hs.root] at hcount
    exact ⟨b, t.height, t.numNodes, rfl, rfl, hcount, hiff.trans (filled_iff le_rfl),
      hiff.trans perfect_iff.symm⟩
  · rw [hrefused ho]
    rfl

theorem binaryTreeIsPerfect_exact_bent : ∃ (b : Bool) (k n : Nat),
    binaryTreeIsPerfect bent (some 0) = some b ∧
      binaryTreeDepthIterative bent (some 0) = some (k : Int) ∧
      binaryTreeSize (levels bent) bent (some 0) = some (n : Int) ∧
      (b = true ↔ n = 2 ^ k - 1) ∧ (b = true ↔ Perfect bentTree) :=
  (binaryTreeIsPerfect_exact spans_bent (by decide) (by decide)).1 (Outcomes.succeed_allOk _)

end DataStructures.BinaryTree
