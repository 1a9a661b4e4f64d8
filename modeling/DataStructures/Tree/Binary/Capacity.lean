import DataStructures.Tree.Avl.LevelOrder
import DataStructures.Tree.Binary.Cousins
import DataStructures.Tree.Binary.Deletion
import DataStructures.Tree.Binary.EarlyExit
import DataStructures.Tree.Binary.Perfect
import Mathlib.Algebra.Group.Nat.Defs

/-!
# Which trees the queue is large enough for

A slot of the queue is never used again, so its 128 slots are a limit for all the nodes that are
put in before a function returns.  `levelOrder_completes_iff` says exactly when no assertion fails.
On the tree `bigTree` of 129 nodes each of the functions fails one (`levelOrder_completes_big`).
-/

namespace DataStructures.BinaryTree

open Lib Queue BreadthFirst LevelOrder

variable {h : Heap} {root : Ptr} {t : Tree} {q : List Nat} {queue : QueueT Nat} {room rounds : Nat}
  {l : List (Nat × BinaryTreeNode)} {data : Int}

/-! ### The functions that come to every node -/

theorem deleteLoop_full (hv : Visits h.cells children q l) (hq : Holds queue q room)
    (hroom : q.length + room < l.length) (c : Cursors) : deleteLoop data h rounds queue c = none := by
  induction hv generalizing queue room rounds c with
  | done => exact absurd hroom (Nat.not_lt_zero _)
  | @step a n q l hn hv ih =>
    cases rounds with
    | zero => rfl
    | succ rounds =>
      obtain ⟨queue', hdeq, hq', -⟩ := hq.dequeue
      have hload : h.load (some a) = some n := hn
      rw [List.length_cons, List.length_cons] at hroom
      rw [deleteLoop, hq.isEmpty, hdeq]
      simp only [List.isEmpty_cons, Bool.false_eq_true, if_false, Option.bind_eq_bind,
        Option.bind_some, hload]
      by_cases hfit : (children n).length ≤ room
      · have hsum : n.left.toList.length + n.right.toList.length ≤ room := by
          rwa [children, List.length_append] at hfit
        obtain ⟨queue₁, queue₂, hr₁, hr₂, hq₂⟩ := enqueueBoth_spec hq' n.left n.right hsum
        rw [Nat.sub_sub, ← List.length_append] at hq₂
        simp only [hr₁, Option.bind_some, hr₂]
        refine ih hq₂ ?_ _
        have hlen := length_enqueued (q := q) hfit
        rw [children] at hlen ⊢
        omega
      · have hfull := enqueueChildren_full hq' n.left n.right (Nat.lt_of_not_le hfit)
        rw [enqueueChildren, Option.bind_eq_bind] at hfull
        rw [← Option.bind_assoc, hfull]
        rfl

/-- **The deletion completes** if the tree has no more nodes than the queue has slots. -/
theorem binaryTreeDelete_isSome (hs : Spans h root t) (ho : h.outcomes = .allOk) (x : Int) :
    (binaryTreeDelete h root x).isSome ↔ t.numNodes ≤ 128 := by
  cases root with
  | none =>
    obtain rfl := hs.eq_nil
    exact ⟨fun _ => Nat.zero_le _, fun _ => rfl⟩
  | some r =>
    obtain ⟨queue, hcreate, hempty, hqsize⟩ := createQueue_ok ho
    by_cases hle : t.numNodes ≤ 128
    · obtain ⟨root', h', t', hrun, -⟩ := hs.delete hle (o := h.outcomes) hcreate hempty hqsize x
      rw [hrun]
      exact ⟨fun _ => hle, fun _ => rfl⟩
    · obtain ⟨queue', henq, hq, hqsize'⟩ := enqueue_root queue hempty hqsize r
      have hroom : (some r).toList.length + 127 < (levelOrder (stored t)).length := by
        rw [length_stored]
        exact Nat.lt_of_not_le hle
      have hloop : deleteLoop x h (queue'.size + 1) queue' ⟨none, none, none⟩ = none :=
        deleteLoop_full hs.visits hq hroom _
      have hnone : binaryTreeDelete h (some r) x = none := by
        simp [binaryTreeDelete, hcreate, henq, hloop]
      rw [hnone]
      exact ⟨fun h => absurd h Bool.false_ne_true, fun hle' => absurd hle' hle⟩

/-- **The tree is printed** if it has no more nodes than the queue has slots. -/
theorem binaryTreeLevelOrderPrint_spec (hs : Spans h root t) (ho : h.outcomes = .allOk) :
    binaryTreeLevelOrderPrint h root = if t.numNodes ≤ 128 then some (values t) else none := by
  have hlen : (stored t).numNodes = t.numNodes := by rw [← length_levelOrder, length_stored]
  have hspec := levelOrderPrint_spec BinaryTreeNode.data (linked_stored hs.node)
    (by rw [roots_stored, ← hs.root]) ho
  rwa [hlen, data_stored] at hspec

/-- **The test completes** if the tree has no more nodes than the queue has slots. -/
theorem binaryTreeIsPerfect_isSome (hs : Spans h root t) (ho : h.outcomes = .allOk) :
    (binaryTreeIsPerfect h root).isSome ↔ t.numNodes ≤ 128 := by
  rw [← binaryTreeDepthIterative_spec hs ho]
  cases root with
  | none => exact Iff.rfl
  | some r =>
    rw [binaryTreeIsPerfect, Option.isNone_some, if_neg Bool.false_ne_true]
    cases binaryTreeDepthIterative h (some r) with
    | none => exact Iff.rfl
    | some depth =>
      obtain ⟨b, hb, -⟩ := binaryTreeIsPerfectHelper_spec hs.ne_nil hs.node
        (Nat.le_of_lt hs.height_lt) depth 1
      rw [← hs.root] at hb
      rw [Option.bind_eq_bind, Option.bind_some, hb]
      exact Iff.rfl

/-! ### All functions in level order -/

theorem isSome_ite {A : Type} (p : Prop) [Decidable p] (a : A) :
    (if p then some a else none : Option A).isSome ↔ p := by
  by_cases hp : p
  · rw [if_pos hp]
    exact ⟨fun _ => hp, fun _ => rfl⟩
  · rw [if_neg hp]
    exact ⟨fun h => absurd h Bool.false_ne_true, fun hp' => absurd hp' hp⟩

/-- **When the functions in level order complete**: the ones that come to every node if there are at
most 128 of them, the others if the nodes up to where they stop are few enough. -/
theorem levelOrder_completes_iff (hs : Spans h root t) (ho : h.outcomes = .allOk)
    (links : Lib.Store Stack.Node) (x y : Int) {K : Type} {entry : Avl.AvlTreeEntry K}
    {u : Avl.Tree K} (hroot : entry.root = u.ptr) (hu : Avl.Holds entry.mem u)
    (hou : entry.mem.outcomes = .allOk) :
    ((binaryTreeInsert h root x).isSome ↔
      t = .nil ∨ ∃ s ∈ (levelOrder (subtrees t)).take 64, s.left = .nil ∨ s.right = .nil) ∧
    ((binaryTreeDelete h root x).isSome ↔ t.numNodes ≤ 128) ∧
    ((binaryTreeLevelOrderPrint h root).isSome ↔ t.numNodes ≤ 128) ∧
    ((binaryTreeLevelOrderReversePrint links h root).isSome ↔ t.numNodes ≤ 128) ∧
    ((binaryTreeDepthIterative h root).isSome ↔ t.numNodes ≤ 128) ∧
    ((binaryTreeCousins h root x y).isSome ↔
      ∀ j, (∀ i, 0 < i → i < j → ∀ n ∈ level t i, n.2 ≠ x ∧ n.2 ≠ y) →
        ((List.range (j + 1)).flatMap (level t)).length ≤ 128) ∧
    ((binaryTreeDivideTwoHalves h root).isSome ↔ (t.numNodes : Int) ≤ intMax ∧
      ∀ pre, pre <+: levelOrder (subtrees t) → (∀ s ∈ pre, 2 * s.numNodes ≠ t.numNodes) →
        1 + (pre.flatMap (fun s => children (nodeOf s).2)).length ≤ 128) ∧
    ((binaryTreeIsPerfect h root).isSome ↔ t.numNodes ≤ 128) ∧
    ((Avl.avlTreeLevelOrderPrint entry).isSome ↔ u.addrs.length ≤ 128) := by
  refine ⟨binaryTreeInsert_isSome hs ho x, binaryTreeDelete_isSome hs ho x, ?_, ?_,
    binaryTreeDepthIterative_spec hs ho, binaryTreeCousins_isSome hs ho x y,
    binaryTreeDivideTwoHalves_isSome hs ho, binaryTreeIsPerfect_isSome hs ho,
    Avl.avlTreeLevelOrderPrint_isSome hroot hu hou⟩
  · rw [binaryTreeLevelOrderPrint_spec hs ho]
    exact isSome_ite _ _
  · rw [binaryTreeLevelOrderReversePrint_spec hs ho]
    exact isSome_ite _ _

/-- An AVL tree with one node. -/
def singleEntry : Avl.AvlTreeEntry Int :=
  ⟨((Memory.empty .allOk).malloc ⟨some 1, none, none, 1⟩).2, some 0⟩

theorem levelOrder_completes_iff_bent :
    (binaryTreeInsert bent (some 0) 9).isSome ∧ (binaryTreeDelete bent (some 0) 9).isSome ∧
    (binaryTreeLevelOrderPrint bent (some 0)).isSome ∧
    (binaryTreeLevelOrderReversePrint selfLinks bent (some 0)).isSome ∧
    (binaryTreeDepthIterative bent (some 0)).isSome ∧ (binaryTreeIsPerfect bent (some 0)).isSome ∧
    (Avl.avlTreeLevelOrderPrint singleEntry).isSome := by
  have hroot : singleEntry.root = (Avl.Tree.node 0 1 .nil .nil 1).ptr := rfl
  have hholds : Avl.Holds singleEntry.mem (.node 0 1 .nil .nil 1) := ⟨rfl, trivial, trivial⟩
  obtain ⟨hins, hdel, hprint, hrev, hdepth, -, -, hperfect, havl⟩ :=
    levelOrder_completes_iff spans_bent rfl selfLinks 9 9 hroot hholds rfl
  exact ⟨hins.mpr (by decide), hdel.mpr (by decide), hprint.mpr (by decide), hrev.mpr (by decide),
    hdepth.mpr (by decide), hperfect.mpr (by decide), havl.mpr (by decide)⟩

/-- The complete tree of `n` nodes, from the node at `k` on, in `depth` levels at most. -/
def completeFrom (n : Nat) : Nat → Nat → Tree
  | 0, _ => .nil
  | depth + 1, k =>
      if k < n then .node (k, 0) (completeFrom n depth (2 * k + 1)) (completeFrom n depth (2 * k + 2))
      else .nil

/-- The complete tree of 129 nodes. -/
def bigTree : Tree := completeFrom 129 8 0

/-- The memory that holds it. -/
def big : Heap where
  cells := fun k =>
    if k < 129 then
      some ⟨0, if 2 * k + 1 < 129 then some (2 * k + 1) else none,
        if 2 * k + 2 < 129 then some (2 * k + 2) else none⟩
    else none
  next := 129
  outcomes := .allOk
  fresh := fun _ hk => if_neg (Nat.not_lt_of_le hk)

theorem ptr_completeFrom {depth k : Nat} (hd : 129 < (k + 1) * 2 ^ depth) :
    ptr (completeFrom 129 depth k) = if k < 129 then some k else none := by
  cases depth with
  | zero =>
    rw [Nat.pow_zero, Nat.mul_one] at hd
    rw [if_neg (by omega)]
    rfl
  | succ depth =>
    rw [completeFrom]
    split <;> rfl

theorem stored_completeFrom {depth k : Nat} (hd : 129 < (k + 1) * 2 ^ depth) :
    ∀ n ∈ levelOrder (stored (completeFrom 129 depth k)), big.cells n.1 = some n.2 := by
  induction depth generalizing k with
  | zero => exact fun _ h => absurd h List.not_mem_nil
  | succ depth ih =>
    rw [Nat.pow_succ] at hd
    have hl : 129 < (2 * k + 1 + 1) * 2 ^ depth := by
      rwa [show 2 * k + 1 + 1 = (k + 1) * 2 by omega, Nat.mul_assoc, Nat.mul_comm 2]
    have hr : 129 < (2 * k + 2 + 1) * 2 ^ depth :=
      hl.trans_le (Nat.mul_le_mul_right _ (by omega))
    rw [completeFrom]
    by_cases hk : k < 129
    · rw [if_pos hk]
      refine forall_mem_levelOrder_node.mpr ⟨?_, ih hl, ih hr⟩
      rw [nodeOf, ptr_completeFrom hl, ptr_completeFrom hr]
      exact if_pos hk
    · rw [if_neg hk]
      exact fun _ h => absurd h List.not_mem_nil

theorem spans_big : Spans big (some 0) bigTree := by
  refine ⟨rfl, stored_completeFrom (by decide), ?_⟩
  have haddrs : (levelOrder bigTree).map Prod.fst = List.range 129 := by decide +kernel
  rw [haddrs]
  exact List.nodup_range

theorem eq_none_of_iff {A : Type} {o : Option A} {p : Prop} (h : o.isSome ↔ p) (hp : ¬ p) : o = none :=
  Option.not_isSome_iff_eq_none.mp fun ho => hp (h.mp ho)

/-- **On a tree of 129 nodes every function fails an assertion.** -/
theorem levelOrder_completes_big :
    Spans big (some 0) bigTree ∧ bigTree.numNodes = 129 ∧ big.outcomes = .allOk ∧
    binaryTreeInsert big (some 0) 0 = none ∧ binaryTreeDelete big (some 0) 0 = none ∧
    binaryTreeLevelOrderPrint big (some 0) = none ∧
    binaryTreeLevelOrderReversePrint selfLinks big (some 0) = none ∧
    binaryTreeDepthIterative big (some 0) = none ∧ binaryTreeCousins big (some 0) 1 1 = none ∧
    binaryTreeDivideTwoHalves big (some 0) = none ∧ binaryTreeIsPerfect big (some 0) = none := by
  have hcount : bigTree.numNodes = 129 := by decide +kernel
  have hsize : ¬ bigTree.numNodes ≤ 128 := by omega
  have hfull : ¬ (bigTree = .nil ∨
      ∃ s ∈ (levelOrder (subtrees bigTree)).take 64, s.left = .nil ∨ s.right = .nil) := by decide +kernel
  have habsent : ∀ n ∈ levelOrder bigTree, n.2 ≠ 1 ∧ n.2 ≠ 1 := by decide +kernel
  have hlevels : ¬ ((List.range (7 + 1)).flatMap (level bigTree)).length ≤ 128 := by decide +kernel
  have hreached : ¬ 1 + (reached (levelOrder (subtrees bigTree))).length ≤ 128 := by decide +kernel
  have hodd : ∀ s : Tree, 2 * s.numNodes ≠ bigTree.numNodes := fun s => by omega
  refine ⟨spans_big, hcount, rfl, eq_none_of_iff (binaryTreeInsert_isSome spans_big rfl 0) hfull,
    eq_none_of_iff (binaryTreeDelete_isSome spans_big rfl 0) hsize,
    (binaryTreeLevelOrderPrint_spec spans_big rfl).trans (if_neg hsize),
    (binaryTreeLevelOrderReversePrint_spec spans_big rfl selfLinks).trans (if_neg hsize),
    eq_none_of_iff (binaryTreeDepthIterative_spec spans_big rfl) hsize,
    eq_none_of_iff (binaryTreeCousins_isSome spans_big rfl 1 1) fun hall => ?_,
    eq_none_of_iff (binaryTreeDivideTwoHalves_isSome spans_big rfl) fun hall => ?_,
    eq_none_of_iff (binaryTreeIsPerfect_isSome spans_big rfl) hsize⟩
  · exact hlevels (hall 7 fun i _ _ n hn => habsent n (mem_of_level hn))
  · exact hreached (hall.2 _ (List.prefix_refl _) fun s _ => hodd s)

end DataStructures.BinaryTree
