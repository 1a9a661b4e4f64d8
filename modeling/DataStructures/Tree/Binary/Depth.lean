import DataStructures.Tree.Binary.Recursion
import DataStructures.Tree.Binary.Traversal

/-!
# The functions in level order and the recursive ones

In a round of the outer loop of `binary_tree_depth_iterative` the queue holds one level, so the number of
rounds is the height (`depthLoop_height`).  `breadthFirst_agree` puts this beside the prints in level
order and in reverse.
-/

namespace DataStructures.BinaryTree

open Lib BreadthFirst LevelOrder

variable {h : Heap} {root : Ptr} {t : Tree} {queue : Queue.QueueT Nat} {room rounds k : Nat} {depth d : Int}

/-- There are nodes at a depth below the height, and only there. -/
theorem level_eq_nil_iff {A : Type} {t : BinaryTree A} {k : Nat} : level t k = [] ↔ t.height ≤ k := by
  refine ⟨fun hnil => ?_, level_eq_nil⟩
  induction t generalizing k with
  | nil => exact Nat.zero_le _
  | node a l r ihl ihr =>
    cases k with
    | zero => cases hnil
    | succ k =>
      rw [level, List.append_eq_nil_iff] at hnil
      have hl := ihl hnil.1
      have hr := ihr hnil.2
      rw [BinaryTree.height]
      omega

/-- **A round for each level**: the depth at the end, if the loop ends. -/
theorem depthLoop_height (hs : Spans h root t) (hk : k ≤ t.height)
    (hq : Queue.Holds queue ((level (stored t) k).map Prod.fst) room)
    (hrun : depthLoop h rounds queue depth = some d) : d = depth + (t.height - k : Nat) := by
  induction rounds generalizing queue room k depth with
  | zero => cases hrun
  | succ rounds ih =>
    rw [depthLoop, hq.isEmpty] at hrun
    by_cases hlevel : level (stored t) k = []
    · have hheight := level_eq_nil_iff.mp hlevel
      rw [height_stored] at hheight
      rw [hlevel] at hrun
      rw [← Option.some.inj hrun, Nat.sub_eq_zero_of_le hheight]
      exact (Int.add_zero depth).symm
    · have hlt : k < t.height := by
        rw [level_eq_nil_iff, height_stored] at hlevel
        exact Nat.lt_of_not_le hlevel
      have hempty : ((level (stored t) k).map Prod.fst).isEmpty = false := by
        simpa using hlevel
      have hsize : Queue.queueSize queue = (level (stored t) k).length := by
        rw [hq.size_eq, List.length_map]
      rw [hempty, if_neg Bool.false_ne_true, hsize] at hrun
      rw [← List.append_nil ((level (stored t) k).map Prod.fst)] at hq
      obtain ⟨hfit, hfull⟩ := depthLevel_spec (fun n hn => hs.node n (mem_of_level hn)) hq
      rw [(linked_stored hs.node).level_succ] at hfit hfull
      rw [List.nil_append] at hfit
      by_cases hroom : ((level (stored t) (k + 1)).map Prod.fst).length ≤ room
      · obtain ⟨queue', hlevelrun, hq'⟩ := hfit hroom
        rw [hlevelrun] at hrun
        have hd := ih hlt hq' hrun
        rw [hd]
        omega
      · rw [hfull (Nat.lt_of_not_le hroom)] at hrun
        cases hrun

/-- **The iterative depth is the height**, if the nodes fit into the queue; without a queue an assertion
fails. -/
theorem depthIterative_outcomes (hs : Spans h root t) (ht : t ≠ .nil) (hsize : t.numNodes ≤ 128) :
    (h.outcomes.Succeed 2 → binaryTreeDepthIterative h root = some (t.height : Int)) ∧
    (¬ h.outcomes.Succeed 2 → binaryTreeDepthIterative h root = none) := by
  obtain ⟨a, hroot⟩ := Option.ne_none_iff_exists'.mp (mt ptr_eq_none.mp ht)
  obtain rfl := hs.root.trans hroot
  rw [binaryTreeDepthIterative, Option.isNone_some, if_neg Bool.false_ne_true]
  refine ⟨fun ho => ?_, fun ho => ?_⟩
  · obtain ⟨queue, hcreate, hempty, hqsize⟩ := createQueue_of ho
    obtain ⟨queue', henq, hq, hqsize'⟩ := enqueue_root queue hempty hqsize a
    have hs' : Spans { h with outcomes := h.outcomes.later 2 } (some a) t := ⟨hs.root, hs.node, hs.nodup⟩
    have hloop := depthLoop_spec hs'.visits hq (rounds_suffice a hqsize') 0
    rw [length_stored] at hloop
    obtain ⟨d, hd⟩ := Option.isSome_iff_exists.mp (hloop.mpr hsize)
    have hzero : (level (stored t) 0).map Prod.fst = [a] := by
      rw [level_zero, roots_stored, hroot]
      rfl
    rw [← hzero] at hq
    rw [hcreate]
    simp only [Option.bind_eq_bind, Option.bind_some, henq]
    rw [hd, depthLoop_height hs' (Nat.zero_le _) hq hd, Int.zero_add, Nat.sub_zero]
  · rw [createQueue_refused ho]
    rfl

/-- What is printed in level order, for what the allocations answer. -/
theorem levelOrderPrint_outcomes (hs : Spans h root t) (hsize : t.numNodes ≤ 128) :
    (h.outcomes.Succeed 2 → binaryTreeLevelOrderPrint h root = some (levelOrder (t.map Prod.snd))) ∧
    (¬ h.outcomes.Succeed 2 → binaryTreeLevelOrderPrint h root = some []) := by
  refine ⟨fun ho => ?_, fun ho => levelOrderPrint_refused _ _ (mt succeed_two.mpr ho)⟩
  have hlen : (stored t).numNodes = t.numNodes := by rw [← length_levelOrder, length_stored]
  have hspec := levelOrderPrint_of BinaryTreeNode.data (linked_stored hs.node)
    (by rw [roots_stored, ← hs.root]) (succeed_two.mp ho)
  rw [hlen, if_pos hsize, data_stored, values, ← levelOrder_map] at hspec
  exact hspec

/-- **The functions in level order agree with the recursive definitions**, on trees of at most 128
nodes, if no allocation is refused; otherwise nothing is printed, or an assertion fails.  NULL is
printed without an allocation. -/
theorem breadthFirst_agree (hs : Spans h root t) (hsize : t.numNodes ≤ 128) (links : Lib.Store Stack.Node) :
    (t = .nil ∨ h.outcomes.Succeed 2 → binaryTreeLevelOrderPrint h root =
      some ((List.range t.height).flatMap (level (t.map Prod.snd)))) ∧
    (t = .nil ∨ h.outcomes.Succeed (t.numNodes + 3) → binaryTreeLevelOrderReversePrint links h root =
      some ((List.range t.height).flatMap (level (t.map Prod.snd))).reverse) ∧
    (t = .nil ∨ h.outcomes.Succeed 2 →
      binaryTreeDepthIterative h root = binaryTreeDepthRecursive (levels h) h root) ∧
    binaryTreeDepthRecursive (levels h) h root = some (t.height : Int) ∧
    (t ≠ .nil → ¬ h.outcomes.Succeed 2 →
      binaryTreeLevelOrderPrint h root = some [] ∧ binaryTreeDepthIterative h root = none) ∧
    (t ≠ .nil → ¬ h.outcomes.Succeed (t.numNodes + 3) →
      binaryTreeLevelOrderReversePrint links h root = none) := by
  have hdepth : binaryTreeDepthRecursive (levels h) h root = some (t.height : Int) := by
    have hle := t.height_le_numNodes
    have hbound : intMax = 2147483647 := rfl
    rw [hs.root]
    exact binaryTreeDepthRecursive_spec hs.node hs.height_lt (by omega)
  have hlevels : (List.range t.height).flatMap (level (t.map Prod.snd)) = levelOrder (t.map Prod.snd) := by
    rw [levelOrder, height_map]
  rw [hdepth, hlevels]
  rcases eq_or_ne t .nil with rfl | ht
  · rw [hs.root]
    exact ⟨fun _ => rfl, fun _ => rfl, fun _ => rfl, rfl, fun hne => absurd rfl hne, fun hne => absurd rfl hne⟩
  · obtain ⟨hprint, hnothing⟩ := levelOrderPrint_outcomes hs hsize
    obtain ⟨hreverse, hrefused⟩ := reversePrint_outcomes hs ht links
    obtain ⟨hiter, hnone⟩ := depthIterative_outcomes hs ht hsize
    rw [values, ← levelOrder_map] at hreverse
    exact ⟨fun ho => hprint (ho.resolve_left ht), fun ho => hreverse ⟨hsize, ho.resolve_left ht⟩,
      fun ho => hiter (ho.resolve_left ht), rfl, fun _ ho => ⟨hnothing ho, hnone ho⟩,
      fun _ ho => hrefused (fun hall => ho hall.2)⟩

theorem breadthFirst_agree_bent :
    binaryTreeLevelOrderPrint bent (some 0) = some [5, 7, 5] ∧
    binaryTreeLevelOrderReversePrint selfLinks bent (some 0) = some [5, 7, 5] ∧
    binaryTreeDepthIterative bent (some 0) = some 3 := by
  obtain ⟨hprint, hreverse, hiter, hrec, -, -⟩ := breadthFirst_agree spans_bent (by decide) selfLinks
  exact ⟨hprint (Or.inr (Outcomes.succeed_allOk _)), hreverse (Or.inr (Outcomes.succeed_allOk _)),
    (hiter (Or.inr (Outcomes.succeed_allOk _))).trans hrec⟩

end DataStructures.BinaryTree
