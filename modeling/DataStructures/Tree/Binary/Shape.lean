import DataStructures.Lib.LevelOrder
import DataStructures.Tree.Binary.Loops
import Mathlib.Data.List.Pairwise

/-!
# Trees of any shape

`Spans h root t`: from the root the memory holds the nodes of `t`, no two of them at one address.
The queue comes to them in level order (`Spans.visits`).

`Spans.relabel` and `Spans.cut` say what becomes of the tree when a datum is changed, and when
the last leaf in level order is cut off.
-/

namespace DataStructures.BinaryTree

open Lib Queue BreadthFirst LevelOrder

/-- A binary tree, with the addresses of its nodes. -/
abbrev Tree := BinaryTree (Nat × Int)

/-- The pointer to the root. -/
def ptr : Tree → Ptr
  | .nil => none
  | .node n _ _ => some n.1

/-- What is stored at the root. -/
def nodeOf : Tree → Nat × BinaryTreeNode
  | .nil => (0, ⟨0, none, none⟩)
  | .node n l r => (n.1, ⟨n.2, ptr l, ptr r⟩)

/-- The tree of the nodes as they are stored. -/
def stored : Tree → BinaryTree (Nat × BinaryTreeNode)
  | .nil => .nil
  | .node n l r => .node (nodeOf (.node n l r)) (stored l) (stored r)

/-- **The memory holds the tree** from the root on. -/
structure Spans (h : Heap) (root : Ptr) (t : Tree) : Prop where
  root : root = ptr t
  node : ∀ n ∈ levelOrder (stored t), h.cells n.1 = some n.2
  nodup : ((levelOrder t).map Prod.fst).Nodup

/-- The positions of the nodes, in level order. -/
def positions (t : Tree) : List (List Bool) := (levelOrder (located t [])).map Prod.fst

/-- The data, in level order. -/
def values (t : Tree) : List Int := (levelOrder t).map Prod.snd

variable {h h' : Heap} {root : Ptr} {t l r : Tree} {a b d k : Nat} {x y : Int} {n : BinaryTreeNode}

/-! ### Level order -/

theorem stored_eq (t : Tree) : stored t = (subtrees t).map nodeOf := by
  induction t with
  | nil => rfl
  | node n l r ihl ihr => rw [stored, ihl, ihr, subtrees, BinaryTree.map]

theorem levelOrder_stored (t : Tree) : levelOrder (stored t) = (levelOrder (subtrees t)).map nodeOf := by
  rw [stored_eq, levelOrder_map]

theorem map_fst_stored (t : Tree) : (stored t).map Prod.fst = t.map Prod.fst := by
  induction t with
  | nil => rfl
  | node n l r ihl ihr => rw [stored, BinaryTree.map, ihl, ihr, BinaryTree.map, nodeOf]

theorem map_data_stored (t : Tree) : (stored t).map (fun n => n.2.data) = t.map Prod.snd := by
  induction t with
  | nil => rfl
  | node n l r ihl ihr => rw [stored, BinaryTree.map, ihl, ihr, BinaryTree.map, nodeOf]

/-- The addresses in level order. -/
theorem addrs_stored (t : Tree) : (levelOrder (stored t)).map Prod.fst = (levelOrder t).map Prod.fst := by
  rw [← levelOrder_map, map_fst_stored, levelOrder_map]

theorem data_stored (t : Tree) : (levelOrder (stored t)).map (fun n => n.2.data) = values t := by
  rw [← levelOrder_map, map_data_stored, levelOrder_map, values]

theorem length_stored (t : Tree) : (levelOrder (stored t)).length = t.numNodes := by
  rw [← List.length_map (f := Prod.fst), addrs_stored, List.length_map, length_levelOrder]

theorem roots_stored (t : Tree) : roots (stored t) = (ptr t).toList := by
  cases t with
  | nil => rfl
  | node n l r => rfl

theorem linked_stored (hn : ∀ n ∈ levelOrder (stored t), h.cells n.1 = some n.2) :
    Linked h.cells children (stored t) := by
  induction t with
  | nil => trivial
  | node n l r ihl ihr =>
    obtain ⟨hroot, hl, hr⟩ := forall_mem_levelOrder_node.mp hn
    refine ⟨hroot, ?_, ihl hl, ihr hr⟩
    rw [roots_stored, roots_stored]
    rfl

/-- **The queue comes to the nodes in level order.** -/
theorem Spans.visits (hs : Spans h root t) :
    Visits h.cells children root.toList (levelOrder (stored t)) := by
  rw [hs.root, ← roots_stored]
  exact visits_levelOrder (linked_stored hs.node)

/-- The nodes of a subtree are stored with the others. -/
theorem mem_stored_of_subtree {s : Tree} (hs : s ∈ levelOrder (subtrees t))
    {m : Nat × BinaryTreeNode} (hm : m ∈ levelOrder (stored s)) : m ∈ levelOrder (stored t) := by
  induction t with
  | nil => cases hs
  | node n l r ihl ihr =>
    rcases mem_levelOrder_node.mp hs with rfl | hs | hs
    · exact hm
    · exact mem_levelOrder_node.mpr (Or.inr (Or.inl (ihl hs)))
    · exact mem_levelOrder_node.mpr (Or.inr (Or.inr (ihr hs)))

/-- **A tree has no more nodes** than have been allocated. -/
theorem Spans.numNodes_lt (hs : Spans h root t) : t.numNodes < levels h := by
  have hsub : (levelOrder t).map Prod.fst ⊆ List.range h.next := by
    rw [← addrs_stored]
    intro b hb
    obtain ⟨m, hm, rfl⟩ := List.mem_map.mp hb
    exact List.mem_range.mpr (Memory.lt_next (hs.node m hm))
  have hle := hs.nodup.length_le_of_subset hsub
  rw [List.length_map, length_levelOrder, List.length_range] at hle
  exact Nat.lt_succ_of_le hle

theorem Spans.height_lt (hs : Spans h root t) : t.height < levels h :=
  Nat.lt_of_le_of_lt t.height_le_numNodes hs.numNodes_lt

/-- The place where a node is stored determines it. -/
theorem Spans.mem_unique {n m : Nat × BinaryTreeNode} (hs : Spans h root t)
    (hn : n ∈ levelOrder (stored t)) (hm : m ∈ levelOrder (stored t)) (heq : n.1 = m.1) : n = m := by
  have hcell := hs.node n hn
  rw [heq, hs.node m hm, Option.some.injEq] at hcell
  exact Prod.ext heq hcell.symm

theorem ptr_eq_none : ptr t = none ↔ t = .nil := by
  cases t with
  | nil => exact ⟨fun _ => rfl, fun _ => rfl⟩
  | node n l r => exact ⟨nofun, nofun⟩

/-- The root pointer is NULL for the empty tree and for no other. -/
theorem Spans.eq_nil (hs : Spans h none t) : t = .nil := ptr_eq_none.mp hs.root.symm

theorem Spans.ne_nil {r : Nat} (hs : Spans h (some r) t) : t ≠ .nil := by
  rintro rfl
  cases hs.root

theorem isNone_ptr (ht : t ≠ .nil) : (ptr t).isNone = false :=
  Option.isNone_eq_false_iff.mpr (Option.isSome_iff_ne_none.mpr (mt ptr_eq_none.mp ht))

/-- A child is stored too. -/
theorem ptr_mem (h : ptr t = some a) : a ∈ (levelOrder t).map Prod.fst := by
  cases t with
  | nil => cases h
  | node n l r =>
    obtain rfl := Option.some.inj h
    exact List.mem_map.mpr ⟨n, mem_levelOrder_node.mpr (Or.inl rfl), rfl⟩

theorem nodup_node {m : Nat × Int} : ((levelOrder (.node m l r)).map Prod.fst).Nodup ↔
    (m.1 ∉ (levelOrder l).map Prod.fst ∧ m.1 ∉ (levelOrder r).map Prod.fst) ∧
      ((levelOrder l).map Prod.fst ++ (levelOrder r).map Prod.fst).Nodup := by
  rw [((levelOrder_node_perm m l r).map Prod.fst).nodup_iff, List.map_cons, List.map_append,
    List.nodup_cons, List.mem_append, not_or]

/-- A node is not its own child. -/
theorem ne_child (hnd : ((levelOrder t).map Prod.fst).Nodup) {m : Nat × BinaryTreeNode}
    (hm : m ∈ levelOrder (stored t)) : m.1 ∉ children m.2 := by
  induction t with
  | nil => cases hm
  | node n l r ihl ihr =>
    obtain ⟨⟨hl, hr⟩, hlr⟩ := nodup_node.mp hnd
    rcases mem_levelOrder_node.mp hm with rfl | hm | hm
    · rw [nodeOf, children, List.mem_append, Option.mem_toList, Option.mem_toList]
      rintro (hc | hc)
      · exact hl (ptr_mem hc)
      · exact hr (ptr_mem hc)
    · exact ihl (List.nodup_append.mp hlr).1 hm
    · exact ihr (List.nodup_append.mp hlr).2.1 hm

/-! ### A changed datum -/

/-- The tree with another datum in the node at `d`. -/
def relabel (d : Nat) (y : Int) (t : Tree) : Tree := t.map (fun n => if n.1 = d then (n.1, y) else n)

theorem ptr_relabel (d : Nat) (y : Int) (t : Tree) : ptr (relabel d y t) = ptr t := by
  cases t with
  | nil => rfl
  | node n l r =>
    rw [relabel, BinaryTree.map, ptr, ptr]
    split <;> rfl

theorem stored_relabel (d : Nat) (y : Int) (t : Tree) : stored (relabel d y t) =
    (stored t).map (fun n => if n.1 = d then (n.1, { n.2 with data := y }) else n) := by
  induction t with
  | nil => rfl
  | node n l r ihl ihr =>
    have hl := ptr_relabel d y l
    have hr := ptr_relabel d y r
    rw [relabel] at ihl ihr hl hr
    rw [relabel, BinaryTree.map, stored, ihl, ihr, stored, BinaryTree.map, nodeOf, hl, hr, nodeOf]
    split <;> rfl

theorem addrs_relabel (d : Nat) (y : Int) (t : Tree) :
    (levelOrder (relabel d y t)).map Prod.fst = (levelOrder t).map Prod.fst := by
  rw [relabel, levelOrder_map, List.map_map]
  refine List.map_congr_left fun n _ => ?_
  rw [Function.comp_apply]
  split <;> rfl

theorem located_map (f : Nat × Int → Nat × Int) (t : Tree) (path : List Bool) :
    located (t.map f) path = (located t path).map (fun n => (n.1, f n.2)) := by
  induction t generalizing path with
  | nil => rfl
  | node n l r ihl ihr => rw [BinaryTree.map, located, ihl, ihr, located, BinaryTree.map]

theorem positions_relabel (d : Nat) (y : Int) (t : Tree) : positions (relabel d y t) = positions t := by
  rw [positions, relabel, located_map, levelOrder_map, List.map_map, positions]
  rfl

/-- One entry of a list with distinct keys is changed. -/
theorem map_ite_eq_set {l : List (Nat × Int)} (hnd : (l.map Prod.fst).Nodup) {i : Nat}
    (hi : (l.map Prod.fst)[i]? = some d) (y : Int) :
    (l.map (fun n => if n.1 = d then (n.1, y) else n)).map Prod.snd = (l.map Prod.snd).set i y := by
  refine List.ext_getElem? (fun j => ?_)
  rw [List.getElem?_map, List.getElem?_map, List.getElem?_set, List.getElem?_map, List.length_map]
  have hil : i < l.length := by
    rw [← List.length_map (f := Prod.fst)]
    exact (List.getElem?_eq_some_iff.mp hi).1
  by_cases hij : i = j
  · subst hij
    rw [List.getElem?_map, List.getElem?_eq_getElem hil, Option.map_some, Option.some.injEq] at hi
    rw [List.getElem?_eq_getElem hil, if_pos rfl, if_pos hil, Option.map_some, if_pos hi]
    rfl
  · rw [if_neg hij]
    cases hj : l[j]? with
    | none => rfl
    | some n =>
      have hne : n.1 ≠ d := by
        rintro rfl
        have hjl := (List.getElem?_eq_some_iff.mp hj).1
        rw [← List.length_map (f := Prod.fst)] at hil
        refine hij ((List.getElem?_inj hil hnd).mp (hi.trans ?_))
        rw [List.getElem?_map, hj]
        rfl
      rw [Option.map_some, if_neg hne]

theorem values_relabel (hnd : ((levelOrder t).map Prod.fst).Nodup) {i : Nat}
    (hi : ((levelOrder t).map Prod.fst)[i]? = some d) (y : Int) :
    values (relabel d y t) = (values t).set i y := by
  rw [values, relabel, levelOrder_map, map_ite_eq_set hnd hi, values]

/-- **The tree with another datum.** -/
theorem Spans.relabel (hs : Spans h root t) (hd : h.cells d = some n)
    (hcells : h'.cells = Function.update h.cells d (some { n with data := y })) :
    Spans h' root (relabel d y t) := by
  refine ⟨by rw [hs.root, ptr_relabel], fun m' hm' => ?_, by rw [addrs_relabel]; exact hs.nodup⟩
  rw [stored_relabel, levelOrder_map] at hm'
  obtain ⟨m, hm, rfl⟩ := List.mem_map.mp hm'
  have hcell := hs.node m hm
  rw [hcells]
  by_cases hmd : m.1 = d
  · rw [hmd, hd, Option.some.injEq] at hcell
    rw [if_pos hmd, ← hcell]
    dsimp only
    rw [hmd, Function.update_self]
  · rw [if_neg hmd, Function.update_of_ne hmd, hcell]

/-! ### A leaf that is cut off -/

/-- The tree without the node at `r`. -/
def cut (r : Nat) (t : Tree) : Tree := prune (fun n => decide (n.1 = r)) t

/-- A node without its child at `r`. -/
def clear (r : Nat) (n : BinaryTreeNode) : BinaryTreeNode :=
  ⟨n.data, if n.left = some r then none else n.left, if n.right = some r then none else n.right⟩

theorem ptr_cut (a : Nat) (t : Tree) : ptr (cut a t) = if ptr t = some a then none else ptr t := by
  cases t with
  | nil => rfl
  | node n l r =>
    rw [cut, prune, ptr]
    by_cases hn : n.1 = a
    · rw [if_pos (decide_eq_true hn), if_pos (congrArg some hn)]
      rfl
    · rw [if_neg (by rwa [decide_eq_true_eq]), if_neg (fun h => hn (Option.some.inj h))]
      rfl

theorem stored_cut (a : Nat) (t : Tree) : stored (cut a t) =
    (prune (fun n => decide (n.1 = a)) (stored t)).map (fun n => (n.1, clear a n.2)) := by
  induction t with
  | nil => rfl
  | node n l r ihl ihr =>
    have hl := ptr_cut a l
    have hr := ptr_cut a r
    rw [cut] at ihl ihr hl hr
    rw [cut, prune, stored, prune, nodeOf]
    cases decide (n.1 = a) with
    | true => rfl
    | false =>
      rw [if_neg Bool.false_ne_true, if_neg Bool.false_ne_true, stored, ihl, ihr, BinaryTree.map,
        nodeOf, hl, hr, clear]

theorem onlyLeaves_stored (h : OnlyLeaves (fun n => decide (n.1 = a)) t) :
    OnlyLeaves (fun n => decide (n.1 = a)) (stored t) := by
  induction t with
  | nil => trivial
  | node n l r ihl ihr =>
    obtain ⟨hn, hl, hr⟩ := h
    refine ⟨fun hp => ?_, ihl hl, ihr hr⟩
    obtain ⟨rfl, rfl⟩ := hn hp
    exact ⟨rfl, rfl⟩

/-- A key that only the last entry has. -/
theorem filter_ne_last {A : Type} {l : List A} (f : A → Nat) (hnd : (l.map f).Nodup)
    (hlast : (l.map f).getLast? = some a) : l.filter (fun n => !decide (f n = a)) = l.dropLast := by
  induction l using List.reverseRecOn with
  | nil => rfl
  | append_singleton l n _ =>
    rw [List.map_append, List.map_singleton, List.getLast?_concat, Option.some.injEq] at hlast
    rw [List.map_append, List.map_singleton] at hnd
    rw [List.filter_append, List.dropLast_concat, List.filter_singleton, hlast]
    rw [decide_eq_true rfl, Bool.not_true, cond_false, List.append_nil, List.filter_eq_self]
    intro m hm
    have hne : f m ≠ a := by
      rw [← hlast]
      exact (List.nodup_append.mp hnd).2.2 _ (List.mem_map_of_mem hm) _ List.mem_cons_self
    rw [decide_eq_false hne]
    rfl

theorem Spans.children_nodup (hs : Spans h root t) :
    (root.toList ++ (levelOrder (stored t)).flatMap (fun n => children n.2)).Nodup := by
  rw [← hs.visits.places, addrs_stored]
  exact hs.nodup

/-- **A child has one parent.** -/
theorem Spans.parent_unique {m m' : Nat × BinaryTreeNode} (hs : Spans h root t)
    (hm : m ∈ levelOrder (stored t)) (hm' : m' ∈ levelOrder (stored t)) (hc : a ∈ children m.2)
    (hc' : a ∈ children m'.2) : m = m' := by
  have hpair := (List.nodup_flatMap.mp (List.nodup_append.mp hs.children_nodup).2.1).2
  have hsymm : Std.Symm (Function.onFun List.Disjoint fun n : Nat × BinaryTreeNode => children n.2) :=
    ⟨fun _ _ hd _ hc hc' => hd hc' hc⟩
  by_contra hne
  exact hpair.forall hm hm' hne hc hc'

theorem detach_eq_clear (hn : (children n).Nodup) (ha : a ∈ children n) : detach n a = clear a n := by
  rw [children] at hn ha
  rw [detach, clear]
  by_cases hl : n.left = some a
  · have hr : n.right ≠ some a := by
      intro hr
      have hmem := Option.mem_toList.mpr hl
      exact (List.nodup_append.mp hn).2.2 a hmem a (Option.mem_toList.mpr hr) rfl
    rw [if_pos hl, if_pos hl, if_neg hr]
  · rw [List.mem_append, Option.mem_toList, Option.mem_toList] at ha
    rw [if_neg hl, if_neg hl, if_pos (ha.resolve_left hl)]

theorem clear_of_not_mem (ha : a ∉ children n) : clear a n = n := by
  rw [children, List.mem_append, Option.mem_toList, Option.mem_toList, not_or] at ha
  rw [clear, if_neg ha.1, if_neg ha.2]

/-- **The tree without its last leaf**; `d` is the parent. -/
theorem Spans.cut (hs : Spans h root t) (hlast : ((levelOrder t).map Prod.fst).getLast? = some a)
    (hleaf : h.cells a = some ⟨x, none, none⟩) (hd : (d, n) ∈ levelOrder (stored t))
    (ha : a ∈ children n)
    (hcells : h'.cells = Function.update (Function.update h.cells d (some (detach n a))) a none) :
    Spans h' root (cut a t) ∧ positions (cut a t) = (positions t).dropLast ∧
      values (cut a t) = (values t).dropLast := by
  have honly : OnlyLeaves (fun n => decide (n.1 = a)) t := by
    refine onlyLeaves_of fun m l r hm hma => ?_
    have hstored : nodeOf (.node m l r) ∈ levelOrder (stored t) := by
      rw [levelOrder_stored]
      exact List.mem_map_of_mem hm
    have hcell := hs.node _ hstored
    rw [nodeOf, of_decide_eq_true hma, hleaf, Option.some.injEq, BinaryTreeNode.mk.injEq] at hcell
    exact ⟨ptr_eq_none.mp hcell.2.1.symm, ptr_eq_none.mp hcell.2.2.symm⟩
  have hlevel : levelOrder (BinaryTree.cut a t) = (levelOrder t).dropLast :=
    (levelOrder_prune honly).trans (filter_ne_last Prod.fst hs.nodup hlast)
  have hroot : root ≠ some a := by
    intro hroot
    refine (List.nodup_append.mp hs.children_nodup).2.2 a (Option.mem_toList.mpr hroot) a ?_ rfl
    exact List.mem_flatMap.mpr ⟨_, hd, ha⟩
  refine ⟨⟨?_, fun m' hm' => ?_, ?_⟩, ?_, ?_⟩
  · rw [ptr_cut, ← hs.root, if_neg hroot]
  · rw [stored_cut, levelOrder_map] at hm'
    obtain ⟨m, hm, rfl⟩ := List.mem_map.mp hm'
    have hstored : OnlyLeaves (fun n => decide (n.1 = a)) (stored t) := onlyLeaves_stored honly
    rw [levelOrder_prune hstored, List.mem_filter, Bool.not_eq_true', decide_eq_false_iff_not] at hm
    obtain ⟨hm, hma⟩ := hm
    rw [hcells, Function.update_of_ne hma]
    dsimp only
    by_cases hmd : m.1 = d
    · obtain rfl := hs.mem_unique hm hd hmd
      have hnd := (List.nodup_flatMap.mp (List.nodup_append.mp hs.children_nodup).2.1).1 _ hm
      rw [Function.update_self, detach_eq_clear hnd ha]
    · have hnot : a ∉ children m.2 := fun hc =>
        hmd (congrArg Prod.fst (hs.parent_unique hm hd hc ha))
      rw [Function.update_of_ne hmd, hs.node m hm, clear_of_not_mem hnot]
  · rw [hlevel, List.map_dropLast]
    exact hs.nodup.sublist (List.dropLast_sublist _)
  · have hmap : (located t []).map (fun n => n.2.1) = t.map Prod.fst :=
      (BinaryTree.comp_map Prod.snd Prod.fst _).trans (by rw [map_snd_located])
    have hsnd : (levelOrder (located t [])).map (fun n => n.2.1) = (levelOrder t).map Prod.fst := by
      rw [← levelOrder_map, hmap, levelOrder_map]
    rw [positions, BinaryTree.cut, prune_located, levelOrder_prune (honly.located []),
      filter_ne_last (fun n : List Bool × (Nat × Int) => n.2.1) (by rw [hsnd]; exact hs.nodup)
        (by rw [hsnd]; exact hlast), List.map_dropLast, positions]
  · rw [values, hlevel, List.map_dropLast, values]

/-! ### A tree in memory -/

/-- A root with only a right child, which has only a left one. -/
def bentTree : Tree := .node (0, 5) .nil (.node (1, 7) (.node (2, 5) .nil .nil) .nil)

/-- The memory that holds it. -/
def bent : Heap :=
  ((((Memory.empty .allOk).malloc ⟨5, none, some 1⟩).2.malloc ⟨7, some 2, none⟩).2.malloc
    ⟨5, none, none⟩).2

theorem spans_bent : Spans bent (some 0) bentTree := by
  refine ⟨rfl, fun n hn => ?_, by decide⟩
  have hlist : levelOrder (stored bentTree) =
    [(0, ⟨5, none, some 1⟩), (1, ⟨7, some 2, none⟩), (2, ⟨5, none, none⟩)] := rfl
  rw [hlist, List.mem_cons, List.mem_cons, List.mem_singleton] at hn
  rcases hn with rfl | rfl | rfl <;> rfl

end DataStructures.BinaryTree
