import DataStructures.Tree.Binary.EarlyExit

/-!
# Sum trees

`dataSum t` is the sum of the data.  `__binary_tree_sum` comes to it if no sum on the way is too large for an
`int` (`binaryTreeSum_spec`).  `binary_tree_is_sum_tree` adds up the trees below the root before it compares
anything, so for the call to end well all their sums have to fit, and that is enough: the calls for the
children add up less (`binaryTreeIsSumTree_exact`).
-/

namespace DataStructures.BinaryTree

open Lib LevelOrder

variable {h : Heap} {root : Ptr} {t s l r : Tree} {n : Nat × Int} {depth : Nat}

/-- It is an `int`. -/
def Representable (x : Int) : Prop := -2147483648 ≤ x ∧ x ≤ intMax

instance (x : Int) : Decidable (Representable x) := inferInstanceAs (Decidable (_ ∧ _))

/-- The sum of the data. -/
def dataSum : Tree → Int
  | .nil => 0
  | .node n l r => dataSum l + dataSum r + n.2

/-- No sum on the way to the sum of the data overflows. -/
def SumsFit : Tree → Prop
  | .nil => True
  | .node n l r => SumsFit l ∧ SumsFit r ∧ Representable (dataSum l + dataSum r) ∧
      Representable (dataSum l + dataSum r + n.2)

instance decidableSumsFit : (t : Tree) → Decidable (SumsFit t)
  | .nil => .isTrue trivial
  | .node n l r =>
      haveI := decidableSumsFit l
      haveI := decidableSumsFit r
      inferInstanceAs (Decidable (SumsFit l ∧ SumsFit r ∧ Representable (dataSum l + dataSum r) ∧
        Representable (dataSum l + dataSum r + n.2)))

/-- Each node that has a child is the sum of the data below it. -/
def IsSumTree : Tree → Prop
  | .nil => True
  | .node _ .nil .nil => True
  | .node n l r => n.2 = dataSum l + dataSum r ∧ IsSumTree l ∧ IsSumTree r

/-- The sums below the root fit, and so does that of both sides. -/
def SumsFitBelow : Tree → Prop
  | .nil => True
  | .node _ l r => SumsFit l ∧ SumsFit r ∧ Representable (dataSum l + dataSum r)

theorem SumsFit.below (h : SumsFit t) : SumsFitBelow t := by
  cases t with
  | nil => trivial
  | node n l r => exact ⟨h.1, h.2.1, h.2.2.1⟩

theorem toInt_eq_none {x : Int} (h : ¬ Representable x) : toInt x = none := if_neg h

theorem not_leaf_or (n : Nat × Int) (l r : Tree) : (l = .nil ∧ r = .nil) ∨
    (IsSumTree (.node n l r) ↔ n.2 = dataSum l + dataSum r ∧ IsSumTree l ∧ IsSumTree r) := by
  cases l with
  | nil =>
    cases r with
    | nil => exact Or.inl ⟨rfl, rfl⟩
    | node => exact Or.inr Iff.rfl
  | node => exact Or.inr Iff.rfl

/-- **`__binary_tree_sum`** comes to the sum of the data exactly if the sums on the way fit. -/
theorem binaryTreeSum_spec (hn : ∀ n ∈ levelOrder (stored s), h.cells n.1 = some n.2)
    (hd : s.height < depth) :
    binaryTreeSum depth h (ptr s) = if SumsFit s then some (dataSum s) else none := by
  induction s generalizing depth with
  | nil =>
    obtain ⟨depth, rfl⟩ := Nat.exists_eq_add_of_lt hd
    exact (if_pos trivial).symm
  | node n l r ihl ihr =>
    cases depth with
    | zero => exact absurd hd (Nat.not_lt_zero _)
    | succ depth =>
      rw [BinaryTree.height] at hd
      obtain ⟨hroot, hnl, hnr⟩ := forall_mem_levelOrder_node.mp hn
      have hload : h.load (some n.1) = some (nodeOf (.node n l r)).2 := hroot
      rw [ptr, binaryTreeSum, hload, Option.bind_eq_bind, Option.bind_some, nodeOf,
        ihl hnl (show l.height < depth by omega), ihr hnr (show r.height < depth by omega)]
      by_cases hl : SumsFit l
      · by_cases hr : SumsFit r
        · rw [if_pos hl, if_pos hr]
          simp only [Option.bind_eq_bind, Option.bind_some]
          by_cases hsum : Representable (dataSum l + dataSum r)
          · rw [toInt_of hsum, Option.bind_some]
            by_cases hfits : Representable (dataSum l + dataSum r + n.2)
            · rw [toInt_of hfits, if_pos ⟨hl, hr, hsum, hfits⟩]
              rfl
            · have hnot : ¬ SumsFit (.node n l r) := fun hf => hfits hf.2.2.2
              rw [toInt_eq_none hfits, if_neg hnot]
          · have hnot : ¬ SumsFit (.node n l r) := fun hf => hsum hf.2.2.1
            rw [toInt_eq_none hsum, if_neg hnot]
            rfl
        · have hnot : ¬ SumsFit (.node n l r) := fun hf => hr hf.2.1
          rw [if_pos hl, if_neg hr, if_neg hnot]
          rfl
      · have hnot : ¬ SumsFit (.node n l r) := fun hf => hl hf.1
        rw [if_neg hl, if_neg hnot]
        rfl

/-- The recursion of `binary_tree_is_sum_tree`, where the sums fit. -/
theorem isSumTree_of_fit (hn : ∀ n ∈ levelOrder (stored s), h.cells n.1 = some n.2)
    (hlevels : s.height < levels h) (hd : s.height < depth) (hf : SumsFitBelow s) :
    ∃ b, binaryTreeIsSumTree h depth (ptr s) = some b ∧ (b = true ↔ IsSumTree s) := by
  induction s generalizing depth with
  | nil =>
    obtain ⟨depth, rfl⟩ := Nat.exists_eq_add_of_lt hd
    exact ⟨true, rfl, iff_of_true rfl trivial⟩
  | node n l r ihl ihr =>
    cases depth with
    | zero => exact absurd hd (Nat.not_lt_zero _)
    | succ depth =>
      rw [BinaryTree.height] at hd hlevels
      obtain ⟨hfl, hfr, hsum⟩ := hf
      obtain ⟨hroot, hnl, hnr⟩ := forall_mem_levelOrder_node.mp hn
      have hload : h.load (some n.1) = some ⟨n.2, ptr l, ptr r⟩ := hroot
      have hleaf : binaryTreeNodeIsLeaf h (some n.1) = some ((ptr l).isNone && (ptr r).isNone) := by
        rw [binaryTreeNodeIsLeaf, hload]
        rfl
      have hlevelsl : l.height < levels h := by omega
      have hlevelsr : r.height < levels h := by omega
      rw [ptr, binaryTreeIsSumTree, hleaf, Option.bind_eq_bind, Option.bind_some]
      rcases not_leaf_or n l r with ⟨rfl, rfl⟩ | hiff
      · exact ⟨true, rfl, iff_of_true rfl trivial⟩
      by_cases hl : l = .nil ∧ r = .nil
      · obtain ⟨rfl, rfl⟩ := hl
        exact ⟨true, rfl, iff_of_true rfl trivial⟩
      have hnot : ((ptr l).isNone && (ptr r).isNone) = false := by
        rw [Bool.and_eq_false_iff]
        by_cases hnil : l = .nil
        · exact Or.inr (isNone_ptr fun hr => hl ⟨hnil, hr⟩)
        · exact Or.inl (isNone_ptr hnil)
      obtain ⟨b, hb, hbl⟩ := ihl hnl hlevelsl (show l.height < depth by omega) hfl.below
      obtain ⟨c, hc, hcr⟩ := ihr hnr hlevelsr (show r.height < depth by omega) hfr.below
      rw [hnot, if_neg Bool.false_ne_true, hload]
      simp only [Option.bind_eq_bind, Option.bind_some, binaryTreeSum_spec hnl hlevelsl,
        binaryTreeSum_spec hnr hlevelsr, if_pos hfl, if_pos hfr, toInt_of hsum]
      by_cases heq : n.2 = dataSum l + dataSum r
      · rw [if_pos heq, hb, Option.bind_some]
        cases b with
        | false =>
          refine ⟨false, rfl, iff_of_false Bool.false_ne_true fun h => ?_⟩
          exact Bool.false_ne_true (hbl.mpr (hiff.mp h).2.1)
        | true =>
          refine ⟨c, hc, hcr.trans ⟨fun hr => hiff.mpr ⟨heq, hbl.mp rfl, hr⟩, fun h => ?_⟩⟩
          exact (hiff.mp h).2.2
      · rw [if_neg heq]
        exact ⟨false, rfl, iff_of_false Bool.false_ne_true fun h => heq (hiff.mp h).1⟩

/-- The recursion where a sum does not fit. -/
theorem isSumTree_of_not_fit (hs : Spans h root t) (hf : ¬ SumsFitBelow t) :
    binaryTreeIsSumTree h (levels h) root = none := by
  rw [hs.root]
  cases t with
  | nil => exact absurd trivial hf
  | node n l r =>
    have hheight := hs.height_lt
    rw [BinaryTree.height] at hheight
    obtain ⟨hroot, hnl, hnr⟩ := forall_mem_levelOrder_node.mp hs.node
    have hload : h.load (some n.1) = some ⟨n.2, ptr l, ptr r⟩ := hroot
    have hleaf : binaryTreeNodeIsLeaf h (some n.1) = some ((ptr l).isNone && (ptr r).isNone) := by
      rw [binaryTreeNodeIsLeaf, hload]
      rfl
    have hnot : ((ptr l).isNone && (ptr r).isNone) = false := by
      rw [Bool.and_eq_false_iff]
      by_cases hnil : l = .nil
      · subst hnil
        refine Or.inr (isNone_ptr ?_)
        rintro rfl
        exact hf ⟨trivial, trivial, by decide⟩
      · exact Or.inl (isNone_ptr hnil)
    have hl := binaryTreeSum_spec hnl (show l.height < levels h by omega)
    have hr := binaryTreeSum_spec hnr (show r.height < levels h by omega)
    have hlevels : levels h = h.next + 1 := rfl
    rw [ptr, hlevels, binaryTreeIsSumTree, hleaf, Option.bind_eq_bind, Option.bind_some, hnot,
      if_neg Bool.false_ne_true, hload]
    simp only [Option.bind_eq_bind, Option.bind_some, hl, hr]
    by_cases hfl : SumsFit l
    · by_cases hfr : SumsFit r
      · have hsum : ¬ Representable (dataSum l + dataSum r) := fun hsum => hf ⟨hfl, hfr, hsum⟩
        rw [if_pos hfl, if_pos hfr, Option.bind_some, Option.bind_some, toInt_eq_none hsum]
        rfl
      · rw [if_pos hfl, if_neg hfr]
        rfl
    · rw [if_neg hfl]
      rfl

/-- **`binary_tree_is_sum_tree` is exact** if the sums of the trees below the root fit, and that of both
sides; otherwise an `int` overflows. -/
theorem binaryTreeIsSumTree_exact (hs : Spans h root t) :
    (SumsFitBelow t → ∃ b, binaryTreeIsSumTree h (levels h) root = some b ∧ (b = true ↔ IsSumTree t)) ∧
    (¬ SumsFitBelow t → binaryTreeIsSumTree h (levels h) root = none) := by
  refine ⟨fun hf => ?_, isSumTree_of_not_fit hs⟩
  rw [hs.root]
  exact isSumTree_of_fit hs.node hs.height_lt hs.height_lt hf

theorem binaryTreeIsSumTree_exact_bent :
    (SumsFitBelow bentTree → ∃ b, binaryTreeIsSumTree bent (levels bent) (some 0) = some b ∧
      (b = true ↔ IsSumTree bentTree)) ∧
    (¬ SumsFitBelow bentTree → binaryTreeIsSumTree bent (levels bent) (some 0) = none) :=
  binaryTreeIsSumTree_exact spans_bent

end DataStructures.BinaryTree
