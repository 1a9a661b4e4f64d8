import DataStructures.Lib.LevelOrder
import Mathlib.Algebra.GroupWithZero.Nat

/-!
# Diagonals of a binary tree

The diagonal `k` of a tree are the values below `k` links to the left.  It consists of spines: a spine
goes on along links to the right, and the spines of the next diagonal are those of the left children,
in the same order (`generation`).

* `visits_generation`: a queue of left children comes to the spines diagonal by diagonal.
* `diagonals_perm`: the diagonals have the value of each node once.
* `pairwise_diagonals`: they are in the order of the number of links to the left.
* `diagonals_right`: a right child comes right after its parent.
-/

namespace DataStructures.Lib.Diagonals

open BreadthFirst LevelOrder

variable {A B : Type}

/-- The values along links to the right. -/
def spine : BinaryTree A → List A
  | .nil => []
  | .node a _ r => a :: spine r

/-- The left children along links to the right. -/
def lefts : BinaryTree A → List (BinaryTree A)
  | .nil => []
  | .node _ l r => present l ++ lefts r

/-- The number of left children. -/
def numLefts : BinaryTree A → Nat
  | .nil => 0
  | .node _ l r => (present l).length + numLefts l + numLefts r

/-- The values below `k` links to the left. -/
def diagonal : BinaryTree A → Nat → List A
  | .nil, _ => []
  | .node a _ r, 0 => a :: diagonal r 0
  | .node _ l r, k + 1 => diagonal l k ++ diagonal r (k + 1)

/-- The values, diagonal by diagonal. -/
def diagonals (t : BinaryTree A) : List A := (List.range t.height).flatMap (diagonal t)

/-- The subtrees that the spines of a diagonal begin in. -/
def generation (t : BinaryTree A) : Nat → List (BinaryTree A)
  | 0 => present t
  | k + 1 => (generation t k).flatMap lefts

variable {t l r : BinaryTree A} {a : A} {k n : Nat}

/-! ### Generations -/

theorem generation_node (a : A) (l r : BinaryTree A) (k : Nat) :
    generation (.node a l r) (k + 1) = generation l k ++ generation r (k + 1) := by
  induction k with
  | zero =>
    have hlefts : ∀ t : BinaryTree A, generation t 1 = lefts t := flatMap_present lefts rfl
    rw [hlefts, hlefts]
    rfl
  | succ k ih =>
    rw [generation, ih, List.flatMap_append]
    rfl

theorem diagonal_zero (t : BinaryTree A) : diagonal t 0 = spine t := by
  induction t with
  | nil => rfl
  | node a l r _ ihr => rw [diagonal, ihr, spine]

/-- **A diagonal consists of the spines of its generation.** -/
theorem flatMap_spine (t : BinaryTree A) (k : Nat) : (generation t k).flatMap spine = diagonal t k := by
  induction t generalizing k with
  | nil =>
    have hnil : generation (.nil : BinaryTree A) k = [] := by
      induction k with
      | zero => rfl
      | succ k ih => rw [generation, ih, List.flatMap_nil]
    rw [hnil]
    rfl
  | node a l r ihl ihr =>
    cases k with
    | zero => rw [diagonal_zero, generation, flatMap_present spine rfl]
    | succ k => rw [generation_node, List.flatMap_append, ihl, ihr, diagonal]

theorem generation_eq_nil (h : t.height ≤ k) : generation t k = [] := by
  induction t generalizing k with
  | nil =>
    induction k with
    | zero => rfl
    | succ k ih => rw [generation, ih (Nat.zero_le k), List.flatMap_nil]
  | node a l r ihl ihr =>
    rw [BinaryTree.height] at h
    cases k with
    | zero => exact absurd h (Nat.not_succ_le_zero _)
    | succ k => rw [generation_node, ihl (by omega), ihr (by omega), List.append_nil]

theorem diagonal_eq_nil (h : t.height ≤ k) : diagonal t k = [] := by
  rw [← flatMap_spine, generation_eq_nil h, List.flatMap_nil]

/-- More diagonals than there are. -/
theorem diagonals_eq (h : t.height ≤ n) : diagonals t = (List.range n).flatMap (diagonal t) :=
  flatMap_range_eq (fun _ hk => diagonal_eq_nil hk) h

/-- **The queue of left children comes to one generation after the other.** -/
theorem visits_generation (t : BinaryTree A) : Visits some lefts (present t)
    ((List.range t.height).flatMap (fun k => (generation t k).map (fun s => (s, s)))) := by
  have hfrom : ∀ d k, t.height = k + d → Visits some lefts (generation t k)
      ((List.range' k d).flatMap (fun k => (generation t k).map (fun s => (s, s)))) := by
    intro d
    induction d with
    | zero =>
      intro k hk
      rw [generation_eq_nil (show t.height ≤ k from Nat.le_of_eq hk)]
      exact .done
    | succ d ih =>
      intro k hk
      have hrest := ih (k + 1) (by omega)
      have hnext : ((generation t k).map (fun s => (s, s))).flatMap (fun n => lefts n.2) =
          generation t (k + 1) := List.flatMap_map ..
      rw [← hnext] at hrest
      have hall := visits_append (by simp) hrest
      rwa [List.map_map, show (Prod.fst ∘ fun s : BinaryTree A => (s, s)) = id from rfl, List.map_id] at hall
  have hall := hfrom t.height 0 (Nat.zero_add _).symm
  rwa [← List.range_eq_range'] at hall

/-! ### What is visited -/

theorem numLefts_eq (t : BinaryTree A) : numLefts t = ((lefts t).map (fun s => numLefts s + 1)).sum := by
  induction t with
  | nil => rfl
  | node a l r _ ihr =>
    have hl : ((present l).map (fun s => numLefts s + 1)).sum = (present l).length + numLefts l := by
      cases l with
      | nil => rfl
      | node b l r =>
        rw [present, List.map_singleton, List.sum_singleton, List.length_singleton]
        exact Nat.add_comm _ _
    rw [numLefts, lefts, List.map_append, List.sum_append, hl, ihr]

/-- From the queue as many spines are visited as there are left children below, and those in it. -/
theorem length_visits {q : List (BinaryTree A)} {v : List (BinaryTree A × BinaryTree A)}
    (hv : Visits some lefts q v) : v.length = (q.map (fun s => numLefts s + 1)).sum := by
  induction hv with
  | done => rfl
  | @step s s' q v hs hv ih =>
    obtain rfl := Option.some.inj hs
    rw [List.length_cons, ih, List.map_append, List.sum_append, ← numLefts_eq, List.map_cons, List.sum_cons]
    omega

/-! ### The order -/

/-- **Each value once.** -/
theorem diagonals_perm (t : BinaryTree A) : (diagonals t).Perm (levelOrder t) := by
  induction t with
  | nil => rfl
  | node a l r ihl ihr =>
    have hsplit : diagonals (.node a l r) = a :: (diagonal r 0 ++
        (List.range (max l.height r.height)).flatMap (fun k => diagonal l k ++ diagonal r (k + 1))) := by
      rw [diagonals, BinaryTree.height, List.range_succ_eq_map, List.flatMap_cons, List.flatMap_map]
      rfl
    have hr : diagonals r = diagonal r 0 ++
        (List.range (max l.height r.height)).flatMap (fun k => diagonal r (k + 1)) := by
      rw [diagonals_eq (Nat.le_succ_of_le (Nat.le_max_right l.height r.height)), List.range_succ_eq_map,
        List.flatMap_cons, List.flatMap_map]
    have hl := diagonals_eq (Nat.le_max_left l.height r.height)
    have hboth := (List.flatMap_append_perm (List.range (max l.height r.height)) (diagonal l)
      (fun k => diagonal r (k + 1))).symm
    rw [hsplit]
    refine (List.Perm.cons a ?_).trans (levelOrder_node_perm a l r).symm
    refine ((hboth.append_left (diagonal r 0)).trans ?_).trans (ihl.append ihr)
    rw [← hl, hr, ← List.append_assoc, ← List.append_assoc]
    exact List.perm_append_comm.append_right _

theorem diagonal_map (f : A → B) (t : BinaryTree A) (k : Nat) :
    diagonal (t.map f) k = (diagonal t k).map f := by
  induction t generalizing k with
  | nil => rfl
  | node a l r ihl ihr =>
    cases k with
    | zero => rw [BinaryTree.map, diagonal, diagonal, ihr, List.map_cons]
    | succ k => rw [BinaryTree.map, diagonal, diagonal, ihl, ihr, List.map_append]

theorem diagonals_map (f : A → B) (t : BinaryTree A) : diagonals (t.map f) = (diagonals t).map f := by
  rw [diagonals, height_map, diagonals, List.map_flatMap]
  exact List.flatMap_congr fun k _ => diagonal_map f t k

/-- On a diagonal the paths go as often to the left as its number says. -/
theorem count_of_mem_diagonal {path : List Bool} {m : List Bool × A} (hm : m ∈ diagonal (located t path) k) :
    m.1.count false = path.count false + k := by
  induction t generalizing path k with
  | nil => cases hm
  | node a l r ihl ihr =>
    cases k with
    | zero =>
      rcases List.mem_cons.mp hm with rfl | hm
      · rfl
      · rw [ihr hm, List.count_append]
        rfl
    | succ k =>
      rcases List.mem_append.mp hm with hm | hm
      · rw [ihl hm, List.count_append, Nat.add_assoc, Nat.add_comm k]
        rfl
      · rw [ihr hm, List.count_append]
        rfl

/-- Lists one after the other, in the order of a key. -/
theorem pairwise_flatMap_range {f : Nat → List B} {key : B → Nat} (hf : ∀ k, ∀ b ∈ f k, key b = k) (n : Nat) :
    ((List.range n).flatMap f).Pairwise (fun b c => key b ≤ key c) := by
  induction n with
  | zero => exact .nil
  | succ n ih =>
    rw [List.range_succ, List.flatMap_append, List.flatMap_singleton, List.pairwise_append]
    refine ⟨ih, ?_, fun b hb c hc => ?_⟩
    · exact List.pairwise_of_forall_mem_list fun b hb c hc =>
        Nat.le_of_eq ((hf n b hb).trans (hf n c hc).symm)
    · obtain ⟨k, hk, hb⟩ := List.mem_flatMap.mp hb
      rw [hf k b hb, hf n c hc]
      exact Nat.le_of_lt (List.mem_range.mp hk)

/-- **The diagonals are in the order of the links to the left.** -/
theorem pairwise_diagonals (t : BinaryTree A) :
    (diagonals (located t [])).Pairwise (fun m n => m.1.count false ≤ n.1.count false) :=
  pairwise_flatMap_range (fun _ _ hm => (count_of_mem_diagonal hm).trans (Nat.zero_add _)) _

/-- A right child and its parent are on one diagonal, side by side. -/
theorem diagonal_right {b c : A} {u v w : BinaryTree A}
    (hs : .node b u (.node c v w) ∈ levelOrder (subtrees t)) :
    ∃ k, ∃ pre post, diagonal t k = pre ++ b :: c :: post := by
  induction t with
  | nil => cases hs
  | node a l r ihl ihr =>
    rcases mem_levelOrder_node.mp hs with hroot | hs | hs
    · obtain ⟨rfl, rfl, rfl⟩ := (BinaryTree.node.injEq ..).mp hroot
      exact ⟨0, [], _, rfl⟩
    · obtain ⟨k, pre, post, hk⟩ := ihl hs
      refine ⟨k + 1, pre, post ++ diagonal r (k + 1), ?_⟩
      rw [diagonal, hk, List.append_assoc]
      rfl
    · obtain ⟨k, pre, post, hk⟩ := ihr hs
      cases k with
      | zero => exact ⟨0, a :: pre, post, by rw [diagonal, hk, List.cons_append]⟩
      | succ k => exact ⟨k + 1, diagonal l k ++ pre, post, by rw [diagonal, hk, List.append_assoc]⟩

/-- **A right child comes right after its parent.** -/
theorem diagonals_right {b c : A} {u v w : BinaryTree A}
    (hs : .node b u (.node c v w) ∈ levelOrder (subtrees t)) :
    ∃ pre post, diagonals t = pre ++ b :: c :: post := by
  obtain ⟨k, pre, post, hk⟩ := diagonal_right hs
  have hlt : k < t.height := by
    by_contra hle
    rw [diagonal_eq_nil (Nat.le_of_not_lt hle)] at hk
    cases pre <;> cases hk
  obtain ⟨before, after, hrange⟩ := List.append_of_mem (List.mem_range.mpr hlt)
  refine ⟨before.flatMap (diagonal t) ++ pre, post ++ after.flatMap (diagonal t), ?_⟩
  rw [diagonals, hrange, List.flatMap_append, List.flatMap_cons, hk]
  simp only [List.append_assoc, List.cons_append]

end DataStructures.Lib.Diagonals
