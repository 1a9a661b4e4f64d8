import DataStructures.Tree.Binary.Shape
import Mathlib.Order.Bounds.Defs

/-!
# The deletion from a tree of any shape

The last node in level order is a leaf, and the last node with a child is its parent
(`Spans.last_leaf`).  So the cursors of the loop are a node with the datum, the leaf that takes its
place, and the node the leaf is cut off from: `binaryTreeDelete_shape`.
-/

namespace DataStructures.BinaryTree

open Lib Queue BreadthFirst LevelOrder

variable {h h' : Heap} {root : Ptr} {t : Tree} {a d i j r : Nat} {x y : Int} {n : BinaryTreeNode}

/-- It has a child. -/
abbrev HasChild (n : Nat × BinaryTreeNode) : Bool := n.2.left.isSome || n.2.right.isSome

theorem children_eq_nil (hn : (n.left.isSome || n.right.isSome) = false) :
    n.left = none ∧ n.right = none := by
  rw [Bool.or_eq_false_iff, Option.isSome_eq_false_iff, Option.isSome_eq_false_iff,
    Option.isNone_iff_eq_none, Option.isNone_iff_eq_none] at hn
  exact hn

theorem flatMap_children_eq_nil {l : List (Nat × BinaryTreeNode)}
    (hl : ∀ m ∈ l, HasChild m = false) : l.flatMap (fun n => children n.2) = [] := by
  rw [List.flatMap_eq_nil_iff]
  intro m hm
  obtain ⟨hleft, hright⟩ := children_eq_nil (hl m hm)
  rw [children, hleft, hright]
  rfl

/-- **The last node is a leaf** below the last node that has a child. -/
theorem Spans.last_leaf (hs : Spans h root t) (hj : lastWhere HasChild (levelOrder (stored t)) = some j)
    (ha : ((levelOrder (stored t)).map Prod.fst).getLast? = some a) :
    ∃ d n y, ((levelOrder (stored t)).map Prod.fst)[j]? = some d ∧ (d, n) ∈ levelOrder (stored t) ∧
      a ∈ children n ∧ h.cells a = some ⟨y, none, none⟩ ∧ (values t).getLast? = some y := by
  obtain ⟨pre, ⟨d, n⟩, post, hl, hlen, hn, hpost⟩ := lastWhere_eq_some hj
  have hd : (d, n) ∈ levelOrder (stored t) := by
    rw [hl]
    exact List.mem_append_right _ List.mem_cons_self
  -- the places that are reached end with the children of the last parent
  have hchild : a ∈ children n := by
    have hne : children n ≠ [] := by
      intro hnil
      rw [children, List.append_eq_nil_iff, Option.toList_eq_nil_iff, Option.toList_eq_nil_iff] at hnil
      rw [HasChild, hnil.1, hnil.2] at hn
      cases hn
    rw [hs.visits.places, hl, List.flatMap_append, List.flatMap_cons, flatMap_children_eq_nil hpost,
      List.append_nil, ← List.append_assoc, List.getLast?_append_of_ne_nil _ hne] at ha
    exact List.mem_of_getLast? ha
  obtain ⟨⟨b, m⟩, hlast, rfl⟩ : ∃ m, (levelOrder (stored t)).getLast? = some m ∧ m.1 = a := by
    rwa [List.getLast?_map, Option.map_eq_some_iff] at ha
  have hm := List.mem_of_getLast? hlast
  have hmn : b ≠ d := by
    rintro rfl
    exact ne_child hs.nodup hd hchild
  have hleaf : HasChild (b, m) = false := by
    rw [hl] at hlast
    rcases List.eq_nil_or_concat' post with rfl | ⟨post, last, rfl⟩
    · rw [List.getLast?_concat, Option.some.injEq] at hlast
      exact absurd (congrArg Prod.fst hlast).symm hmn
    · rw [← List.cons_append, ← List.append_assoc, List.getLast?_concat, Option.some.injEq] at hlast
      exact hpost _ (by rw [← hlast]; exact List.mem_append_right _ List.mem_cons_self)
  obtain ⟨y, left, right⟩ := m
  obtain ⟨rfl, rfl⟩ := children_eq_nil hleaf
  refine ⟨d, n, y, ?_, hd, hchild, hs.node _ hm, ?_⟩
  · rw [hl, List.getElem?_map, List.getElem?_append_right (Nat.le_of_eq hlen), hlen, Nat.sub_self]
    rfl
  · rw [← data_stored, List.getLast?_map, hlast]
    rfl

/-- A tree in which no node has a child. -/
theorem Spans.single (hs : Spans h (some a) t) (hj : lastWhere HasChild (levelOrder (stored t)) = none) :
    ∃ y, t = .node (a, y) .nil .nil := by
  cases t with
  | nil => exact absurd hs.root nofun
  | node n l r =>
    have hroot : nodeOf (.node n l r) ∈ levelOrder (stored (.node n l r)) :=
      mem_levelOrder_node.mpr (Or.inl rfl)
    obtain ⟨hl, hr⟩ := children_eq_nil (lastWhere_eq_none hj _ hroot)
    obtain rfl := ptr_eq_none.mp hl
    obtain rfl := ptr_eq_none.mp hr
    obtain rfl : a = n.1 := Option.some.inj hs.root
    exact ⟨n.2, rfl⟩

/-- The last place where a value is. -/
theorem lastWhere_isGreatest {l : List Int} (hi : lastWhere (fun y => decide (y = x)) l = some i) :
    IsGreatest {i | l[i]? = some x} i := by
  obtain ⟨pre, y, post, rfl, rfl, hy, hpost⟩ := lastWhere_eq_some hi
  rw [decide_eq_true_eq] at hy
  subst hy
  refine ⟨?_, fun j hj => ?_⟩
  · show (pre ++ y :: post)[pre.length]? = some y
    rw [List.getElem?_append_right (Nat.le_refl _), Nat.sub_self, List.getElem?_cons_zero]
  · have hj : (pre ++ y :: post)[j]? = some y := hj
    by_contra hlt
    obtain ⟨k, rfl⟩ := Nat.exists_eq_add_of_lt (Nat.lt_of_not_le hlt)
    rw [List.getElem?_append_right (by omega), show pre.length + k + 1 - pre.length = k + 1 by omega,
      List.getElem?_cons_succ] at hj
    have hne := hpost y (List.mem_of_getElem? hj)
    rw [decide_eq_true rfl] at hne
    cases hne

/-- **The cursors of the loop.** -/
theorem Spans.cursors (hs : Spans h (some a) t) (hsize : t.numNodes ≤ 128) {queue : QueueT Nat}
    (hempty : Holds queue [] 128) (hqsize : queue.size = 128) (x : Int) :
    ∃ queue', assertEnqueue queue (some a) = some queue' ∧
      deleteLoop x h (queue'.size + 1) queue' ⟨none, none, none⟩ =
        some ⟨(lastWhere (fun y => decide (y = x)) (values t)).bind
            (((levelOrder (stored t)).map Prod.fst)[·]?),
          ((levelOrder (stored t)).map Prod.fst).getLast?,
          (lastWhere HasChild (levelOrder (stored t))).bind
            (((levelOrder (stored t)).map Prod.fst)[·]?)⟩ := by
  obtain ⟨queue', henq, hq, hqsize'⟩ := enqueue_root queue hempty hqsize a
  refine ⟨queue', henq, ?_⟩
  have hfit : (levelOrder (stored t)).length ≤ (some a).toList.length + 127 := by
    rw [length_stored]
    exact hsize
  have hr : (levelOrder (stored t)).length < queue'.size + 1 := by
    rw [length_stored, hqsize']
    omega
  rw [deleteLoop_spec hs.visits hq hfit hr, foldl_visit, ← data_stored, lastWhere_map]
  rfl

/-- The steps behind the loop, in a tree with more than one node. -/
theorem Spans.remove {b : Nat} (hs : Spans h root t) (hd : ((levelOrder t).map Prod.fst)[i]? = some d)
    (hj : lastWhere HasChild (levelOrder (stored t)) = some j)
    (ha : ((levelOrder t).map Prod.fst).getLast? = some a)
    (hb : ((levelOrder t).map Prod.fst)[j]? = some b) :
    ∃ y h₁ h₂ h₃ t', h.cells a = some ⟨y, none, none⟩ ∧ (values t).getLast? = some y ∧
      setData h (some d) y = some h₁ ∧ clearChild h₁ (some b) (some a) = some h₂ ∧
      binaryTreeNodeDestroy (levels h₂) h₂ (some a) = some h₃ ∧ Spans h₃ root t' ∧
      positions t' = (positions t).dropLast ∧ values t' = ((values t).set i y).dropLast := by
  obtain ⟨-, -, y, -, -, -, hleaf, hlast⟩ := hs.last_leaf hj (by rwa [addrs_stored])
  obtain ⟨m, hm, rfl⟩ := List.mem_map.mp (by rw [addrs_stored]; exact List.mem_of_getElem? hd)
  -- the datum is copied
  obtain ⟨h₁, hset, hcells₁, -, -⟩ := setData_spec (hs.node m hm) y
  have hs₁ := hs.relabel (hs.node m hm) hcells₁
  have haddrs₁ := addrs_relabel m.1 y t
  have hj₁ : lastWhere HasChild (levelOrder (stored (BinaryTree.relabel m.1 y t))) = some j := by
    rw [stored_relabel, levelOrder_map, lastWhere_map, ← hj]
    congr 1
    funext n
    rw [Function.comp_apply]
    split <;> rfl
  -- the leaf is cut off
  obtain ⟨b₁, n, z, hb₁, hn, hchild, hleaf₁, -⟩ :=
    hs₁.last_leaf hj₁ (a := a) (by rw [addrs_stored, haddrs₁, ha])
  obtain rfl : b₁ = b := by
    rw [addrs_stored, haddrs₁, hb] at hb₁
    exact (Option.some.inj hb₁).symm
  obtain ⟨h₂, hclear, hcells₂, -⟩ := clearChild_spec (hs₁.node _ hn) a
  have hne : a ≠ b₁ := by
    rintro rfl
    exact ne_child hs₁.nodup hn hchild
  have hleaf₂ : h₂.cells a = some ⟨z, none, none⟩ := by
    rw [hcells₂, Function.update_of_ne hne, hleaf₁]
  obtain ⟨h₃, hdestroy, hcells₃, -⟩ := binaryTreeNodeDestroy_leaf hleaf₂
  rw [hcells₂] at hcells₃
  obtain ⟨hs₃, hpos, hval⟩ := hs₁.cut (by rw [haddrs₁, ha]) hleaf₁ hn hchild hcells₃
  refine ⟨y, h₁, h₂, h₃, _, hleaf, hlast, hset, hclear, hdestroy, hs₃, ?_, ?_⟩
  · rw [hpos, positions_relabel]
  · rw [hval, values_relabel hs.nodup hd]

/-- The deletion, once the queue is there. -/
theorem Spans.delete (hs : Spans h (some r) t) (hsize : t.numNodes ≤ 128) {queue : QueueT Nat}
    {o : Outcomes} (hcreate : createQueue h = some (queue, { h with outcomes := o }))
    (hempty : Holds queue [] 128) (hqsize : queue.size = 128) (x : Int) : ∃ root' h' t',
      binaryTreeDelete h (some r) x = some (root', h') ∧ Spans h' root' t' ∧
      (x ∉ values t → root' = some r ∧ h'.cells = h.cells ∧ t' = t) ∧
      (x ∈ values t → ∃ i y, IsGreatest {i | (values t)[i]? = some x} i ∧
        (values t).getLast? = some y ∧ positions t' = (positions t).dropLast ∧
        values t' = ((values t).set i y).dropLast) := by
  have hs' : Spans { h with outcomes := o } (some r) t := ⟨hs.root, hs.node, hs.nodup⟩
  obtain ⟨queue', henq, hloop⟩ := hs'.cursors hsize hempty hqsize x
  cases hi : lastWhere (fun y => decide (y = x)) (values t) with
  | none =>
    have hx : x ∉ values t := fun hx => by
      have hne := lastWhere_eq_none hi x hx
      rw [decide_eq_true rfl] at hne
      cases hne
    rw [hi] at hloop
    refine ⟨some r, { h with outcomes := o }, t, ?_, hs', fun _ => ⟨rfl, rfl, rfl⟩,
      fun hx' => absurd hx' hx⟩
    simp [binaryTreeDelete, hcreate, henq, hloop]
  | some i =>
    have hgreat := lastWhere_isGreatest hi
    have hx : x ∈ values t := List.mem_of_getElem? hgreat.1
    have hin : i < (levelOrder t).length := by
      rw [← List.length_map (f := Prod.snd)]
      exact lastWhere_lt hi
    obtain ⟨d, hd⟩ : ∃ d, ((levelOrder t).map Prod.fst)[i]? = some d :=
      ⟨_, List.getElem?_eq_getElem (by rwa [List.length_map])⟩
    obtain ⟨a, ha⟩ : ∃ a, ((levelOrder t).map Prod.fst).getLast? = some a := by
      have hne : (levelOrder t).map Prod.fst ≠ [] := List.ne_nil_of_mem (List.mem_of_getElem? hd)
      exact ⟨_, List.getLast?_eq_some_getLast hne⟩
    rw [hi, Option.bind_some, addrs_stored, hd, ha] at hloop
    cases hj : lastWhere HasChild (levelOrder (stored t)) with
    | none =>
      -- the root is the only node
      obtain ⟨y, rfl⟩ := hs.single hj
      obtain rfl : i = 0 := Nat.lt_one_iff.mp hin
      obtain rfl : r = d := Option.some.inj hd
      obtain rfl : r = a := Option.some.inj ha
      obtain ⟨h', hdestroy, hcells, -⟩ :=
        binaryTreeNodeDestroy_leaf (hs'.node (r, ⟨y, none, none⟩) (List.mem_singleton.mpr rfl))
      rw [hj] at hloop
      refine ⟨none, h', .nil, ?_, ⟨rfl, nofun, List.nodup_nil⟩, fun hx' => absurd hx hx',
        fun _ => ⟨0, y, hgreat, rfl, rfl, rfl⟩⟩
      simp [binaryTreeDelete, hcreate, henq, hloop, hdestroy]
    | some j =>
      obtain ⟨b, hb⟩ : ∃ b, ((levelOrder t).map Prod.fst)[j]? = some b := by
        refine ⟨_, List.getElem?_eq_getElem ?_⟩
        rw [← addrs_stored, List.length_map]
        exact lastWhere_lt hj
      obtain ⟨y, h₁, h₂, h₃, t', hleaf, hlast, hset, hclear, hdestroy, hs₃, hpos, hval⟩ :=
        hs'.remove hd hj ha hb
      rw [hj, Option.bind_some, hb] at hloop
      refine ⟨some r, h₃, t', ?_, hs₃, fun hx' => absurd hx hx',
        fun _ => ⟨i, y, hgreat, hlast, hpos, hval⟩⟩
      have hload : Memory.load { h with outcomes := o } (some a) = some ⟨y, none, none⟩ := hleaf
      simp [binaryTreeDelete, hcreate, henq, hloop, hload, hset, hclear, hdestroy]

/-- **The deletion from a tree of any shape** with no more nodes than the queue has slots: unless
one of the two allocations of the queue is refused, the tree is as it was if the datum does not occur;
if it does, the last node in level order is gone, and its datum stands where the last occurrence was. -/
theorem binaryTreeDelete_shape (hs : Spans h root t) (hsize : t.numNodes ≤ 128) (x : Int) :
    (root ≠ none ∧ ¬ h.outcomes.Succeed 2) ∨ ∃ root' h' t',
      binaryTreeDelete h root x = some (root', h') ∧ Spans h' root' t' ∧
      (x ∉ values t → root' = root ∧ h'.cells = h.cells ∧ t' = t) ∧
      (x ∈ values t → ∃ i y, IsGreatest {i | (values t)[i]? = some x} i ∧
        (values t).getLast? = some y ∧ positions t' = (positions t).dropLast ∧
        values t' = ((values t).set i y).dropLast) := by
  cases root with
  | none =>
    obtain rfl := hs.eq_nil
    exact Or.inr ⟨none, h, .nil, rfl, hs, fun _ => ⟨rfl, rfl, rfl⟩, nofun⟩
  | some r =>
    by_cases ho : h.outcomes.Succeed 2
    · obtain ⟨queue, hcreate, hempty, hqsize⟩ := createQueue_of ho
      exact Or.inr (hs.delete hsize hcreate hempty hqsize x)
    · exact Or.inl ⟨nofun, ho⟩

/-- The `7` is deleted from `bentTree`: the datum of the last node takes its place. -/
theorem binaryTreeDelete_shape_bent : ∃ root' h' t',
    binaryTreeDelete bent (some 0) 7 = some (root', h') ∧ Spans h' root' t' ∧
      positions t' = (positions bentTree).dropLast ∧ values t' = [5, 5] := by
  rcases binaryTreeDelete_shape spans_bent (by decide) 7 with ⟨-, ho⟩ | ⟨root', h', t', hr, hs, -, hin⟩
  · exact absurd (Outcomes.succeed_allOk 2) ho
  · obtain ⟨i, y, ⟨hi, -⟩, hlast, hpos, hval⟩ := hin (by decide)
    have hvalues : values bentTree = [5, 7, 5] := rfl
    rw [hvalues] at hi hlast hval
    obtain rfl : 5 = y := Option.some.inj hlast
    obtain rfl : i = 1 := by
      have hall : ∀ i < 3, ([5, 7, 5] : List Int)[i]? = some 7 → i = 1 := by decide
      exact hall i (List.getElem?_eq_some_iff.mp hi).1 hi
    exact ⟨root', h', t', hr, hs, hpos, hval⟩

end DataStructures.BinaryTree
