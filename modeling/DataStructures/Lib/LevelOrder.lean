import DataStructures.Lib.BreadthFirst
import Mathlib.Data.Tree.Basic
import Mathlib.Data.List.Nodup
import Mathlib.Data.List.Perm.Basic
import Mathlib.Data.Nat.Init

/-!
# Binary trees in level order

`level t k` are the values at depth `k`, from left to right, and `levelOrder t` those of all levels.
`subtrees` labels each node with the tree below it and `located` with the path to it; `prune` cuts
off the nodes with a property.

* `levelOrder_node_perm`: level order has the value of each node once.
* `levelOrder_prune`: leaves that are cut off are missing in level order, and nothing else is.
* `visits_levelOrder`: a breadth-first traversal of a tree of nodes is in level order.
-/

namespace DataStructures.Lib.LevelOrder

open BreadthFirst

variable {A B P N : Type}

/-- The values on a level. -/
def level : BinaryTree A → Nat → List A
  | .nil, _ => []
  | .node a _ _, 0 => [a]
  | .node _ l r, k + 1 => level l k ++ level r k

/-- The values, level by level. -/
def levelOrder (t : BinaryTree A) : List A := (List.range t.height).flatMap (level t)

/-- Each node with the tree below it. -/
def subtrees : BinaryTree A → BinaryTree (BinaryTree A)
  | .nil => .nil
  | .node a l r => .node (.node a l r) (subtrees l) (subtrees r)

/-- The tree, if it is not empty. -/
def present : BinaryTree A → List (BinaryTree A)
  | .nil => []
  | .node a l r => [.node a l r]

/-- Each node with the path to it: `false` goes to the left. -/
def located : BinaryTree A → List Bool → BinaryTree (List Bool × A)
  | .nil, _ => .nil
  | .node a l r, path => .node (path, a) (located l (path ++ [false])) (located r (path ++ [true]))

/-- The tree without the nodes that have the property. -/
def prune (p : A → Bool) : BinaryTree A → BinaryTree A
  | .nil => .nil
  | .node a l r => if p a then .nil else .node a (prune p l) (prune p r)

variable {t l r : BinaryTree A} {a : A} {k n : Nat}

/-! ### Levels -/

theorem level_eq_nil (h : t.height ≤ k) : level t k = [] := by
  induction t generalizing k with
  | nil => rfl
  | node a l r ihl ihr =>
    cases k with
    | zero => exact absurd h (Nat.not_succ_le_zero _)
    | succ k =>
      rw [BinaryTree.height, Nat.succ_le_succ_iff, Nat.max_le] at h
      rw [level, ihl h.1, ihr h.2, List.append_nil]

/-- From `m` on there is nothing. -/
theorem flatMap_range_eq {f : Nat → List B} {m : Nat} (hf : ∀ k, m ≤ k → f k = []) (h : m ≤ n) :
    (List.range m).flatMap f = (List.range n).flatMap f := by
  induction n, h using Nat.le_induction with
  | base => rfl
  | succ n hn ih =>
    rw [List.range_succ, List.flatMap_append, ← ih, List.flatMap_singleton, hf n hn, List.append_nil]

/-- More levels than there are. -/
theorem levelOrder_eq (h : t.height ≤ n) : levelOrder t = (List.range n).flatMap (level t) :=
  flatMap_range_eq (fun _ hk => level_eq_nil hk) h

/-- Below the root the levels of both subtrees stand side by side. -/
theorem levelOrder_node (a : A) (l r : BinaryTree A) : levelOrder (.node a l r) =
    a :: (List.range (max l.height r.height)).flatMap (fun k => level l k ++ level r k) := by
  rw [levelOrder, BinaryTree.height, List.range_succ_eq_map, List.flatMap_cons, List.flatMap_map]
  rfl

/-- **Each value once.** -/
theorem levelOrder_node_perm (a : A) (l r : BinaryTree A) :
    (levelOrder (.node a l r)).Perm (a :: (levelOrder l ++ levelOrder r)) := by
  rw [levelOrder_node, levelOrder_eq (Nat.le_max_left l.height r.height),
    levelOrder_eq (Nat.le_max_right l.height r.height)]
  exact (List.flatMap_append_perm _ _ _).symm.cons a

theorem mem_levelOrder_node {b : A} : b ∈ levelOrder (.node a l r) ↔
    b = a ∨ b ∈ levelOrder l ∨ b ∈ levelOrder r := by
  rw [(levelOrder_node_perm a l r).mem_iff, List.mem_cons, List.mem_append]

/-- What holds of all values holds at the root and in both subtrees. -/
theorem forall_mem_levelOrder_node {Q : A → Prop} : (∀ b ∈ levelOrder (.node a l r), Q b) ↔
    Q a ∧ (∀ b ∈ levelOrder l, Q b) ∧ ∀ b ∈ levelOrder r, Q b := by
  simp only [mem_levelOrder_node, or_imp, forall_and, forall_eq]

@[simp] theorem length_levelOrder (t : BinaryTree A) : (levelOrder t).length = t.numNodes := by
  induction t with
  | nil => rfl
  | node a l r ihl ihr =>
    rw [(levelOrder_node_perm a l r).length_eq, List.length_cons, List.length_append, ihl, ihr]
    rfl

/-- Some of the levels have no more values than the tree. -/
theorem length_levels_le (t : BinaryTree A) (n : Nat) :
    ((List.range n).flatMap (level t)).length ≤ t.numNodes := by
  rw [← length_levelOrder]
  rcases Nat.le_total t.height n with h | h
  · exact Nat.le_of_eq (congrArg List.length (levelOrder_eq h).symm)
  · obtain ⟨d, hd⟩ := Nat.exists_eq_add_of_le h
    rw [levelOrder, hd, List.range_add, List.flatMap_append, List.length_append]
    exact Nat.le_add_right _ _

theorem mem_of_level (h : a ∈ level t k) : a ∈ levelOrder t := by
  have hk : k < t.height := by
    by_contra hk
    rw [level_eq_nil (Nat.le_of_not_lt hk)] at h
    cases h
  exact List.mem_flatMap.mpr ⟨k, List.mem_range.mpr hk, h⟩

theorem flatMap_present (f : BinaryTree A → List B) (hf : f .nil = []) (t : BinaryTree A) :
    (present t).flatMap f = f t := by
  cases t with
  | nil => exact hf.symm
  | node a l r => exact List.flatMap_singleton ..

/-! ### Changed labels -/

theorem level_map (f : A → B) (t : BinaryTree A) (k : Nat) : level (t.map f) k = (level t k).map f := by
  induction t generalizing k with
  | nil => rfl
  | node a l r ihl ihr =>
    cases k with
    | zero => rfl
    | succ k => rw [BinaryTree.map, level, level, ihl, ihr, List.map_append]

theorem height_map (f : A → B) (t : BinaryTree A) : (t.map f).height = t.height := by
  induction t with
  | nil => rfl
  | node a l r ihl ihr => rw [BinaryTree.map, BinaryTree.height, BinaryTree.height, ihl, ihr]

theorem levelOrder_map (f : A → B) (t : BinaryTree A) : levelOrder (t.map f) = (levelOrder t).map f := by
  rw [levelOrder, height_map, levelOrder, List.map_flatMap]
  exact List.flatMap_congr fun k _ => level_map f t k

theorem ne_nil_of_mem_subtrees {s : BinaryTree A} (hs : s ∈ levelOrder (subtrees t)) : s ≠ .nil := by
  induction t with
  | nil => cases hs
  | node a l r ihl ihr =>
    rcases mem_levelOrder_node.mp hs with rfl | hs | hs
    · exact nofun
    · exact ihl hs
    · exact ihr hs

/-- A subtree is no larger. -/
theorem numNodes_le_of_mem_subtrees {s : BinaryTree A} (hs : s ∈ levelOrder (subtrees t)) :
    s.numNodes ≤ t.numNodes ∧ s.height ≤ t.height := by
  induction t with
  | nil => cases hs
  | node a l r ihl ihr =>
    rw [BinaryTree.numNodes, BinaryTree.height]
    rcases mem_levelOrder_node.mp hs with rfl | hs | hs
    · exact ⟨Nat.le_refl _, Nat.le_refl _⟩
    · have hl := ihl hs
      omega
    · have hr := ihr hs
      omega

theorem map_snd_located (t : BinaryTree A) (path : List Bool) : (located t path).map Prod.snd = t := by
  induction t generalizing path with
  | nil => rfl
  | node a l r ihl ihr => rw [located, BinaryTree.map, ihl, ihr]

/-! ### Cutting off leaves -/

variable {p : A → Bool}

/-- The nodes with the property are leaves. -/
def OnlyLeaves (p : A → Bool) : BinaryTree A → Prop
  | .nil => True
  | .node a l r => (p a = true → l = .nil ∧ r = .nil) ∧ OnlyLeaves p l ∧ OnlyLeaves p r

theorem onlyLeaves_of (h : ∀ a l r, .node a l r ∈ levelOrder (subtrees t) → p a = true →
    l = .nil ∧ r = .nil) : OnlyLeaves p t := by
  induction t with
  | nil => trivial
  | node a l r ihl ihr =>
    refine ⟨h a l r (mem_levelOrder_node.mpr (Or.inl rfl)), ihl ?_, ihr ?_⟩
    · exact fun b x y hm => h b x y (mem_levelOrder_node.mpr (Or.inr (Or.inl hm)))
    · exact fun b x y hm => h b x y (mem_levelOrder_node.mpr (Or.inr (Or.inr hm)))

theorem OnlyLeaves.located (h : OnlyLeaves p t) (path : List Bool) :
    OnlyLeaves (fun n => p n.2) (located t path) := by
  induction t generalizing path with
  | nil => trivial
  | node a l r ihl ihr =>
    obtain ⟨ha, hl, hr⟩ := h
    refine ⟨fun hp => ?_, ihl hl _, ihr hr _⟩
    obtain ⟨rfl, rfl⟩ := ha hp
    exact ⟨rfl, rfl⟩

theorem height_prune_le (p : A → Bool) (t : BinaryTree A) : (prune p t).height ≤ t.height := by
  induction t with
  | nil => exact Nat.le_refl _
  | node a l r ihl ihr =>
    rw [prune]
    split
    · exact Nat.zero_le _
    · rw [BinaryTree.height, BinaryTree.height]
      omega

theorem level_prune (h : OnlyLeaves p t) (k : Nat) :
    level (prune p t) k = (level t k).filter (fun a => !p a) := by
  induction t generalizing k with
  | nil => rfl
  | node a l r ihl ihr =>
    obtain ⟨ha, hl, hr⟩ := h
    rw [prune]
    cases hp : p a with
    | true =>
      -- a leaf, so there is nothing below it
      obtain ⟨rfl, rfl⟩ := ha hp
      cases k with
      | zero => rw [if_pos rfl, level, level, List.filter_cons, hp]; rfl
      | succ k => rfl
    | false =>
      cases k with
      | zero => rw [if_neg Bool.false_ne_true, level, level, List.filter_cons, hp]; rfl
      | succ k =>
        rw [if_neg Bool.false_ne_true, level, level, ihl hl, ihr hr, List.filter_append]

/-- **Leaves that are cut off** are missing in level order, and nothing else is. -/
theorem levelOrder_prune (h : OnlyLeaves p t) :
    levelOrder (prune p t) = (levelOrder t).filter (fun a => !p a) := by
  rw [levelOrder_eq (height_prune_le p t), levelOrder, List.filter_flatMap]
  exact List.flatMap_congr fun k _ => level_prune h k

/-- A property of the value is one of the value with its path. -/
theorem prune_located (p : A → Bool) (t : BinaryTree A) (path : List Bool) :
    located (prune p t) path = prune (fun n => p n.2) (located t path) := by
  induction t generalizing path with
  | nil => rfl
  | node a l r ihl ihr =>
    rw [prune, located, prune]
    cases p a with
    | true => rfl
    | false => exact congrArg₂ _ (ihl _) (ihr _)

/-! ### The traversal -/

/-- The root of a tree of nodes, if there is one. -/
def roots : BinaryTree (P × N) → List P
  | .nil => []
  | .node n _ _ => [n.1]

/-- The nodes are at their places, and reach the ones below them. -/
def Linked (load : P → Option N) (next : N → List P) : BinaryTree (P × N) → Prop
  | .nil => True
  | .node n l r =>
      load n.1 = some n.2 ∧ next n.2 = roots l ++ roots r ∧ Linked load next l ∧ Linked load next r

variable {load : P → Option N} {next : N → List P} {nodes : BinaryTree (P × N)} {n : P × N}

theorem level_zero (t : BinaryTree (P × N)) : (level t 0).map Prod.fst = roots t := by
  cases t with
  | nil => rfl
  | node n l r => rfl

theorem Linked.load_eq (h : Linked load next nodes) (hn : n ∈ levelOrder nodes) :
    load n.1 = some n.2 := by
  induction nodes with
  | nil => cases hn
  | node m l r ihl ihr =>
    obtain ⟨hm, -, hl, hr⟩ := h
    rcases mem_levelOrder_node.mp hn with rfl | hn | hn
    · exact hm
    · exact ihl hl hn
    · exact ihr hr hn

/-- **A level reaches the next one.** -/
theorem Linked.level_succ (h : Linked load next nodes) (k : Nat) :
    (level nodes k).flatMap (fun n => next n.2) = (level nodes (k + 1)).map Prod.fst := by
  induction nodes generalizing k with
  | nil => rfl
  | node m l r ihl ihr =>
    obtain ⟨-, hm, hl, hr⟩ := h
    cases k with
    | zero =>
      rw [level, List.flatMap_singleton, hm, level, List.map_append, level_zero, level_zero]
    | succ k => rw [level, List.flatMap_append, ihl hl, ihr hr, level, List.map_append]

/-- Below an empty level there is nothing. -/
theorem level_eq_nil_of_le {i : Nat} (h : level t k = []) (hi : k ≤ i) : level t i = [] := by
  induction t generalizing k i with
  | nil => rfl
  | node a l r ihl ihr =>
    cases k with
    | zero => cases h
    | succ k =>
      cases i with
      | zero => exact absurd hi (Nat.not_succ_le_zero k)
      | succ i =>
        have hki := Nat.le_of_succ_le_succ hi
        rw [level, List.append_eq_nil_iff] at h
        rw [level, ihl h.1 hki, ihr h.2 hki, List.append_nil]

/-- **The traversal of a tree is in level order.** -/
theorem visits_levelOrder (h : Linked load next nodes) :
    Visits load next (roots nodes) (levelOrder nodes) := by
  have hfrom : ∀ d k, nodes.height = k + d →
      Visits load next ((level nodes k).map Prod.fst) ((List.range' k d).flatMap (level nodes)) := by
    intro d
    induction d with
    | zero =>
      intro k hk
      rw [level_eq_nil (show nodes.height ≤ k from Nat.le_of_eq hk)]
      exact .done
    | succ d ih =>
      intro k hk
      have hrest := ih (k + 1) (by omega)
      rw [← h.level_succ] at hrest
      exact visits_append (fun n hn => h.load_eq (mem_of_level hn)) hrest
  have hall := hfrom nodes.height 0 (Nat.zero_add _).symm
  rwa [level_zero, ← List.range_eq_range'] at hall

end DataStructures.Lib.LevelOrder
