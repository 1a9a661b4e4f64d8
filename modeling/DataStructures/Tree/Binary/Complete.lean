import DataStructures.Tree.Binary.Loops
import DataStructures.Lib.Refinement
import Mathlib.Data.List.Nodup

/-!
# The tree built by insertions stays complete

`Complete h root nodes A`: the nodes hold the array `A` as a complete binary tree, the children
of the node at `k` being the ones at `2k + 1` and `2k + 2`; so level order is the order of the
array (`Complete.visits`).  An insertion appends to the array, and a deletion puts the last
element where the last match is (`spec`).
-/

namespace DataStructures.BinaryTree

open Lib Queue BreadthFirst Refinement

/-! ### The specification -/

/-- The calls. -/
inductive Call where
  | insert (data : Int)
  | delete (data : Int)

/-- The last match is overwritten with the last element, and the last position is dropped. -/
def deleted (A : List Int) (x : Int) : List Int :=
  match lastWhere (fun y => decide (y = x)) A, A.getLast? with
  | some i, some y => (A.set i y).dropLast
  | _, _ => A

/-- **The specification**: whether NULL is returned, and the array. -/
def spec (A : List Int) : Call → Bool × List Int
  | .insert x => (false, A ++ [x])
  | .delete x => ((deleted A x).isEmpty, deleted A x)

/-! ### The tree -/

/-- The memory and the root. -/
structure State where
  heap : Heap
  root : Ptr

/-- An empty tree. -/
def start : State := ⟨Memory.empty .allOk, none⟩

/-- A call, by a caller that keeps the root: whether NULL is returned, and the state. -/
def Call.run (s : State) : Call → Option (Bool × State)
  | insert x => (binaryTreeInsert s.heap s.root x).map
      (fun r => (r.1.isNone, ⟨r.2, if s.root.isNone then r.1 else s.root⟩))
  | delete x => (binaryTreeDelete s.heap s.root x).map (fun r => (r.1.isNone, ⟨r.2, r.1⟩))

/-- **The complete binary tree of an array**, with its nodes in the order of the array. -/
structure Complete (h : Heap) (root : Ptr) (nodes : List Nat) (A : List Int) : Prop where
  root : root = nodes[0]?
  length_eq : nodes.length = A.length
  node : ∀ k a x, nodes[k]? = some a → A[k]? = some x →
    h.cells a = some ⟨x, nodes[2 * k + 1]?, nodes[2 * k + 2]?⟩
  nodup : nodes.Nodup
  live : ∀ a, h.cells a ≠ none → a ∈ nodes

/-- The nodes with what they hold. -/
def records (nodes : List Nat) (A : List Int) : List (Nat × BinaryTreeNode) :=
  (nodes.zip A).mapIdx (fun k n => (n.1, ⟨n.2, nodes[2 * k + 1]?, nodes[2 * k + 2]?⟩))

variable {h h' : Heap} {root : Ptr} {nodes : List Nat} {A : List Int} {a b k j i new : Nat} {x y : Int}
  {n : BinaryTreeNode}

theorem records_getElem? (ha : nodes[k]? = some a) (hx : A[k]? = some x) :
    (records nodes A)[k]? = some (a, ⟨x, nodes[2 * k + 1]?, nodes[2 * k + 2]?⟩) := by
  have hz : (nodes.zip A)[k]? = some (a, x) := List.getElem?_zip_eq_some.mpr ⟨ha, hx⟩
  rw [records, List.getElem?_mapIdx, hz]
  rfl

theorem of_records_getElem? {m : Nat × BinaryTreeNode} (hm : (records nodes A)[k]? = some m) :
    ∃ x, nodes[k]? = some m.1 ∧ A[k]? = some x ∧
      m.2 = ⟨x, nodes[2 * k + 1]?, nodes[2 * k + 2]?⟩ := by
  rw [records, List.getElem?_mapIdx, Option.map_eq_some_iff] at hm
  obtain ⟨⟨a, x⟩, hz, rfl⟩ := hm
  obtain ⟨ha, hx⟩ := List.getElem?_zip_eq_some.mp hz
  exact ⟨x, ha, hx, rfl⟩

theorem records_addrs (hl : nodes.length = A.length) : (records nodes A).map Prod.fst = nodes := by
  have hz : (records nodes A).map Prod.fst = (nodes.zip A).map Prod.fst := by
    refine List.ext_getElem? (fun k => ?_)
    rw [records, List.getElem?_map, List.getElem?_mapIdx, List.getElem?_map, Option.map_map]
    rfl
  rw [hz, List.map_fst_zip (Nat.le_of_eq hl)]

theorem records_data (hl : nodes.length = A.length) :
    (records nodes A).map (fun n => n.2.data) = A := by
  have hz : (records nodes A).map (fun n => n.2.data) = (nodes.zip A).map Prod.snd := by
    refine List.ext_getElem? (fun k => ?_)
    rw [records, List.getElem?_map, List.getElem?_mapIdx, List.getElem?_map, Option.map_map]
    rfl
  rw [hz, List.map_snd_zip (Nat.le_of_eq hl.symm)]

theorem take_two (l : List Nat) (k : Nat) : (l.drop k).take 2 = l[k]?.toList ++ l[k + 1]?.toList := by
  rw [List.take_add_one, List.take_add_one, List.take_zero, List.nil_append, List.getElem?_drop,
    List.getElem?_drop, Nat.add_zero]

/-- **Level order is the order of the array.** -/
theorem Complete.visits (hc : Complete h root nodes A) :
    Visits h.cells children root.toList (records nodes A) := by
  have hload : ∀ m ∈ records nodes A, h.cells m.1 = some m.2 := by
    intro m hm
    obtain ⟨k, hk⟩ := List.mem_iff_getElem?.mp hm
    obtain ⟨x, ha, hx, hm2⟩ := of_records_getElem? hk
    rw [hm2]
    exact hc.node k _ x ha hx
  have hnext : ∀ k m, (records nodes A)[k]? = some m → children m.2 =
      (((records nodes A).drop (2 * k + 1)).take 2).map Prod.fst := by
    intro k m hk
    obtain ⟨x, -, -, hm2⟩ := of_records_getElem? hk
    rw [List.map_take, List.map_drop, records_addrs hc.length_eq, take_two, hm2]
    rfl
  have hv := visits_of_binary hload hnext 0
  rw [List.drop_zero, List.map_take, records_addrs hc.length_eq] at hv
  rwa [hc.root, ← List.nil_append nodes[0]?.toList, ← List.take_zero, ← List.take_add_one]

/-! ### The insertion -/

theorem getElem?_concat {α : Type} (l : List α) (y : α) (i : Nat) :
    (l ++ [y])[i]? = if i = l.length then some y else l[i]? := by
  by_cases hi : i = l.length
  · rw [if_pos hi, hi, List.getElem?_concat_length]
  · rw [if_neg hi, List.getElem?_append]
    by_cases hlt : i < l.length
    · rw [if_pos hlt]
    · rw [if_neg hlt, List.getElem?_singleton, if_neg (by omega), List.getElem?_eq_none (by omega)]

theorem Complete.not_mem (hc : Complete h root nodes A) (ha : h.cells a = none) : a ∉ nodes := by
  intro hm
  obtain ⟨k, hk⟩ := List.mem_iff_getElem?.mp hm
  have hlt := (List.getElem?_eq_some_iff.mp hk).1
  rw [hc.length_eq] at hlt
  rw [hc.node k a A[k] hk (List.getElem?_eq_getElem hlt)] at ha
  cases ha

/-- Distinct positions, distinct nodes. -/
theorem Complete.ne (hc : Complete h root nodes A) (ha : nodes[k]? = some a) (hb : nodes[j]? = some b)
    (hne : j ≠ k) : b ≠ a := by
  rintro rfl
  have hlt := (List.getElem?_eq_some_iff.mp hb).1
  exact hne ((List.getElem?_inj hlt hc.nodup).mp (hb.trans ha.symm))

/-- The tree with a new node behind the last one; `k` is its parent. -/
theorem Complete.attach (hc : Complete h root nodes A)
    (hk : nodes.length = 2 * k + 1 ∨ nodes.length = 2 * k + 2) (ha : nodes[k]? = some a) (hx : A[k]? = some x)
    (hat : Attached h h' a new ⟨x, nodes[2 * k + 1]?, nodes[2 * k + 2]?⟩ y) :
    Complete h' root (nodes ++ [new]) (A ++ [y]) := by
  have hnew := hc.not_mem hat.fresh
  have hane : a ≠ new := by
    rintro rfl
    exact hnew (List.mem_of_getElem? ha)
  refine ⟨?_, ?_, fun j b z hb hz => ?_, ?_, fun b hb => ?_⟩
  · have hk0 : nodes.length ≠ 0 := by omega
    rw [hc.root, getElem?_concat, if_neg hk0.symm]
  · rw [List.length_append, List.length_append, hc.length_eq]
    rfl
  · rw [getElem?_concat] at hb hz
    rw [← hc.length_eq] at hz
    rw [hat.cells, getElem?_concat, getElem?_concat]
    by_cases hj : j = nodes.length
    · rw [if_pos hj, Option.some.injEq] at hb hz
      rw [← hb, ← hz, Function.update_of_ne hane.symm, Function.update_self, if_neg (by omega),
        if_neg (by omega), List.getElem?_eq_none (by omega), List.getElem?_eq_none (by omega)]
    · rw [if_neg hj] at hb hz
      by_cases hjk : j = k
      · subst hjk
        obtain rfl := Option.some.inj (ha.symm.trans hb)
        obtain rfl := Option.some.inj (hx.symm.trans hz)
        rw [Function.update_self]
        -- the left child is missing, or the right one
        rcases hk with hk | hk
        · have hl : nodes[2 * j + 1]? = none := List.getElem?_eq_none (Nat.le_of_eq hk)
          rw [attach_of_none hl, if_pos hk.symm, if_neg (by omega)]
        · have hl : nodes[2 * j + 1]? ≠ none := by
            rw [List.getElem?_eq_getElem (by omega)]
            exact Option.some_ne_none _
          rw [attach_of_ne hl, if_neg (by omega), if_pos hk.symm]
      · have hbn : b ≠ new := by
          rintro rfl
          exact hnew (List.mem_of_getElem? hb)
        rw [Function.update_of_ne (hc.ne ha hb hjk), Function.update_of_ne hbn, hc.node j b z hb hz,
          if_neg (by omega), if_neg (by omega)]
  · refine List.nodup_append.mpr ⟨hc.nodup, List.nodup_singleton _, fun b hb c hcm => ?_⟩
    rw [List.mem_singleton.mp hcm]
    rintro rfl
    exact hnew hb
  · rw [List.mem_append, List.mem_singleton]
    by_cases hbn : b = new
    · exact .inr hbn
    · by_cases hba : b = a
      · exact .inl (hba ▸ List.mem_of_getElem? ha)
      · rw [hat.cells, Function.update_of_ne hba, Function.update_of_ne hbn] at hb
        exact .inl (hc.live b hb)

theorem Complete.nil (hc : Complete h none nodes A) : nodes = [] ∧ A = [] := by
  have hnodes : nodes = [] := by
    have hr := hc.root.symm
    rwa [List.getElem?_eq_none_iff, Nat.le_zero, List.length_eq_zero_iff] at hr
  exact ⟨hnodes, List.length_eq_zero_iff.mp (by rw [← hc.length_eq, hnodes]; rfl)⟩

/-- A first node. -/
theorem Complete.first (hc : Complete h none nodes A)
    (hcells : h'.cells = Function.update h.cells new (some ⟨x, none, none⟩)) :
    Complete h' (some new) [new] [x] := by
  refine ⟨rfl, rfl, fun k a y ha hy => ?_, List.nodup_singleton _, fun a ha => ?_⟩
  · rw [List.getElem?_singleton] at ha hy
    by_cases hk : k = 0
    · rw [if_pos hk, Option.some.injEq] at ha hy
      rw [hcells, ← ha, ← hy, Function.update_self, hk]
      rfl
    · rw [if_neg hk] at ha
      cases ha
  · by_contra hne
    rw [List.mem_singleton] at hne
    rw [hcells, Function.update_of_ne hne] at ha
    have hm := hc.live a ha
    rw [hc.nil.1] at hm
    exact List.not_mem_nil hm

theorem split_at {α : Type} {l : List α} {m : α} (hm : l[k]? = some m) :
    ∃ pre post, l = pre ++ m :: post ∧ pre.length = k := by
  obtain ⟨hk, rfl⟩ := List.getElem?_eq_some_iff.mp hm
  refine ⟨l.take k, l.drop (k + 1), ?_, List.length_take_of_le (Nat.le_of_lt hk)⟩
  rw [← List.drop_eq_getElem_cons, List.take_append_drop]

/-- The nodes before the one at `k` have both children. -/
theorem records_full {pre post : List (Nat × BinaryTreeNode)} {m : Nat × BinaryTreeNode}
    (hk : 2 * k + 1 ≤ nodes.length) (hsplit : records nodes A = pre ++ m :: post)
    (hlen : pre.length = k) : ∀ m ∈ pre, m.2.left ≠ none ∧ m.2.right ≠ none := by
  intro m hm
  obtain ⟨j, hj⟩ := List.mem_iff_getElem?.mp hm
  have hlt := (List.getElem?_eq_some_iff.mp hj).1
  have hj' : (records nodes A)[j]? = some m := by
    rw [hsplit, List.getElem?_append_left hlt, hj]
  obtain ⟨x, -, -, hm2⟩ := of_records_getElem? hj'
  rw [hm2, List.getElem?_eq_getElem (by omega), List.getElem?_eq_getElem (by omega)]
  exact ⟨Option.some_ne_none _, Option.some_ne_none _⟩

/-- **The insertion appends to the array.** -/
theorem binaryTreeInsert_spec (hc : Complete h root nodes A) (ho : h.outcomes = .allOk)
    (hsize : A.length ≤ 128) (x : Int) : ∃ new h',
      binaryTreeInsert h root x = some (some new, h') ∧ h'.outcomes = .allOk ∧
      Complete h' (if root.isNone then some new else root) (nodes ++ [new]) (A ++ [x]) := by
  cases root with
  | none =>
    obtain ⟨new, h', hcr, hfresh, hcells, ho'⟩ := binaryTreeNodeCreate_ok ho x
    obtain ⟨rfl, rfl⟩ := hc.nil
    exact ⟨new, h', congrArg some hcr, ho', hc.first hcells⟩
  | some r =>
    have hpos : 0 < nodes.length := (List.getElem?_eq_some_iff.mp hc.root.symm).1
    -- the parent of the next node
    obtain ⟨k, hk⟩ : ∃ k, nodes.length = 2 * k + 1 ∨ nodes.length = 2 * k + 2 :=
      ⟨(nodes.length - 1) / 2, by omega⟩
    have hkn : k < nodes.length := by omega
    have hkA : k < A.length := by rwa [← hc.length_eq]
    have ha := List.getElem?_eq_getElem hkn
    have hx := List.getElem?_eq_getElem hkA
    obtain ⟨pre, post, hsplit, hlen⟩ := split_at (records_getElem? ha hx)
    have hv := hc.visits
    rw [hsplit] at hv
    obtain ⟨queue, hcreate, hempty, hqsize⟩ := createQueue_ok ho
    obtain ⟨queue', henq, hq, hqsize'⟩ := enqueue_root queue hempty hqsize r
    have hopen : nodes[2 * k + 1]? = none ∨ nodes[2 * k + 2]? = none := by
      rw [List.getElem?_eq_none_iff, List.getElem?_eq_none_iff]
      omega
    have hrounds : pre.length < queue'.size + 1 := by
      rw [hqsize', hlen]
      have := hc.length_eq
      omega
    have hroom : 2 * pre.length + nodes[2 * k + 1]?.toList.length ≤ 127 := by
      have hnodes := hc.length_eq
      rcases hk with hk | hk
      · rw [List.getElem?_eq_none (Nat.le_of_eq hk), Option.toList_none, List.length_nil]
        omega
      · have hle := Option.length_toList_le (o := nodes[2 * k + 1]?)
        omega
    obtain ⟨new, h', hrun, hat⟩ := insertLoop_spec hv (records_full (by omega) hsplit hlen)
      hopen hq hroom hrounds ho x
    refine ⟨new, h', ?_, hat.outcomes, hc.attach hk ha hx hat⟩
    simp [binaryTreeInsert, hcreate, henq, hrun]

/-! ### The deletion -/

/-- The tree with another datum in one node. -/
theorem Complete.set (hc : Complete h root nodes A) (ha : nodes[i]? = some a)
    (hn : h.cells a = some n)
    (hcells : h'.cells = Function.update h.cells a (some { n with data := y })) :
    Complete h' root nodes (A.set i y) := by
  have hin := (List.getElem?_eq_some_iff.mp ha).1
  have hiA : i < A.length := by rwa [← hc.length_eq]
  refine ⟨hc.root, by rw [List.length_set, hc.length_eq], fun j b z hb hz => ?_, hc.nodup,
    fun b hb => ?_⟩
  · rw [hcells]
    by_cases hji : j = i
    · subst hji
      obtain rfl := Option.some.inj (ha.symm.trans hb)
      rw [List.getElem?_set_self hiA, Option.some.injEq] at hz
      have hn' := hc.node j a A[j] ha (List.getElem?_eq_getElem hiA)
      obtain rfl := Option.some.inj (hn.symm.trans hn')
      rw [Function.update_self, hz]
    · rw [List.getElem?_set_ne (Ne.symm hji)] at hz
      rw [Function.update_of_ne (hc.ne ha hb hji)]
      exact hc.node j b z hb hz
  · by_cases hba : b = a
    · exact hba ▸ List.mem_of_getElem? ha
    · rw [hcells, Function.update_of_ne hba] at hb
      exact hc.live b hb

/-- The tree without the last node; `k` is its parent. -/
theorem Complete.dropLast {r : Nat} (hc : Complete h root nodes A)
    (hk : nodes.length = 2 * k + 2 ∨ nodes.length = 2 * k + 3) (ha : nodes[k]? = some a)
    (hx : A[k]? = some x) (hr : nodes[nodes.length - 1]? = some r)
    (hcells : h'.cells = Function.update (Function.update h.cells a
      (some (detach ⟨x, nodes[2 * k + 1]?, nodes[2 * k + 2]?⟩ r))) r none) :
    Complete h' root nodes.dropLast A.dropLast := by
  refine ⟨?_, ?_, fun j b z hb hz => ?_, hc.nodup.sublist (List.dropLast_sublist _), fun b hb => ?_⟩
  · rw [hc.root, List.getElem?_dropLast, if_pos (by omega)]
  · rw [List.length_dropLast, List.length_dropLast, hc.length_eq]
  · rw [List.getElem?_dropLast] at hb hz
    rw [← hc.length_eq] at hz
    obtain ⟨hj, hb⟩ := Option.ite_none_right_eq_some.mp hb
    rw [if_pos hj] at hz
    rw [hcells, Function.update_of_ne (hc.ne hr hb (by omega)), List.getElem?_dropLast,
      List.getElem?_dropLast]
    by_cases hjk : j = k
    · subst hjk
      obtain rfl := Option.some.inj (ha.symm.trans hb)
      obtain rfl := Option.some.inj (hx.symm.trans hz)
      rw [Function.update_self, detach]
      -- the last node is a left child, or a right one
      rcases hk with hk | hk
      · have hlast : nodes[2 * j + 1]? = some r := by
          rw [← hr, hk]
          rfl
        rw [if_pos hlast, if_neg (by omega), if_neg (by omega), List.getElem?_eq_none (Nat.le_of_eq hk)]
      · have hlast : nodes[2 * j + 1]? ≠ some r := by
          intro hl
          exact hc.ne hr hl (by omega) rfl
        rw [if_neg hlast, if_pos (by omega), if_neg (by omega)]
    · rw [Function.update_of_ne (hc.ne ha hb hjk), hc.node j b z hb hz]
      by_cases hl : 2 * j + 1 < nodes.length - 1
      · rw [if_pos hl, if_pos (by omega)]
      · rw [if_neg hl, if_neg (by omega), List.getElem?_eq_none (by omega),
          List.getElem?_eq_none (by omega)]
  · have hbr : b ≠ r := by
      rintro rfl
      rw [hcells, Function.update_self] at hb
      exact hb rfl
    rw [hcells, Function.update_of_ne hbr] at hb
    have hbn : b ∈ nodes := by
      by_cases hba : b = a
      · exact hba ▸ List.mem_of_getElem? ha
      · rw [Function.update_of_ne hba] at hb
        exact hc.live b hb
    obtain ⟨j, hj⟩ := List.mem_iff_getElem?.mp hbn
    have hlt := (List.getElem?_eq_some_iff.mp hj).1
    have hne : j ≠ nodes.length - 1 := by
      rintro rfl
      exact hbr (Option.some.inj (hj.symm.trans hr))
    refine List.mem_of_getElem? (i := j) ?_
    rw [List.getElem?_dropLast, if_pos (by omega), hj]

/-- An only node is freed. -/
theorem Complete.last (hc : Complete h root nodes A) (hn : nodes = [a])
    (hcells : h'.cells = Function.update h.cells a none) : Complete h' none [] [] := by
  refine ⟨rfl, rfl, fun k b z hb => ?_, List.nodup_nil, fun b hb => ?_⟩
  · cases hb
  · have hba : b ≠ a := by
      rintro rfl
      rw [hcells, Function.update_self] at hb
      exact hb rfl
    rw [hcells, Function.update_of_ne hba] at hb
    have hm := hc.live b hb
    rw [hn, List.mem_singleton] at hm
    exact absurd hm hba

/-- The cursors on a complete tree. -/
theorem Complete.cursors (hc : Complete h root nodes A) (x : Int) :
    (records nodes A).foldl (visit x) ⟨none, none, none⟩ =
      ⟨(lastWhere (fun y => decide (y = x)) A).bind (nodes[·]?), nodes[nodes.length - 1]?,
        if nodes.length / 2 = 0 then none else nodes[nodes.length / 2 - 1]?⟩ := by
  have hcount : (records nodes A).length = nodes.length := by
    rw [← List.length_map (f := Prod.fst), records_addrs hc.length_eq]
  have hparent := lastWhere_of_index (p := fun n => n.2.left.isSome || n.2.right.isSome)
    (l := records nodes A) (nodes.length / 2) (fun j m hm => ?_) (by rw [hcount]; omega)
  · have hdata := lastWhere_map (p := fun y => decide (y = x)) (fun n => n.2.data) (records nodes A)
    rw [records_data hc.length_eq] at hdata
    rw [foldl_visit, records_addrs hc.length_eq, hparent, hdata, List.getLast?_eq_getElem?]
    by_cases h0 : nodes.length / 2 = 0
    · rw [if_pos h0, if_pos h0]
      rfl
    · rw [if_neg h0, if_neg h0]
      rfl
  · obtain ⟨z, -, -, hm2⟩ := of_records_getElem? hm
    rw [hm2, Bool.or_eq_true, Option.isSome_iff_ne_none, Option.isSome_iff_ne_none, ne_eq, ne_eq,
      List.getElem?_eq_none_iff, List.getElem?_eq_none_iff]
    omega

/-- The functions run with the loop's cursors. -/
theorem Complete.deleteLoop (hc : Complete h root nodes A) (ho : h.outcomes = .allOk)
    (hsize : A.length ≤ 128) {r : Nat} (hroot : root = some r) (x : Int) : ∃ queue queue',
      createQueue h = some (queue, h) ∧ assertEnqueue queue root = some queue' ∧
      BinaryTree.deleteLoop x h (queue'.size + 1) queue' ⟨none, none, none⟩ =
        some ⟨(lastWhere (fun y => decide (y = x)) A).bind (nodes[·]?), nodes[nodes.length - 1]?,
          if nodes.length / 2 = 0 then none else nodes[nodes.length / 2 - 1]?⟩ := by
  obtain ⟨queue, hcreate, hempty, hqsize⟩ := createQueue_ok ho
  obtain ⟨queue', henq, hq, hqsize'⟩ := enqueue_root queue hempty hqsize r
  have hcount : (records nodes A).length = A.length := by
    rw [← List.length_map (f := Prod.fst), records_addrs hc.length_eq, hc.length_eq]
  have hv := hc.visits
  rw [hroot] at hv
  refine ⟨queue, queue', hcreate, hroot ▸ henq, ?_⟩
  rw [← hc.cursors]
  refine deleteLoop_spec hv hq ?_ ?_ _
  · rw [hcount]
    exact hsize
  · rw [hcount, hqsize']
    omega

/-- The steps behind the loop, where the tree has more than one node. -/
theorem Complete.remove {d r : Nat} (hc : Complete h root nodes A) (hmany : nodes.length / 2 ≠ 0)
    (hd : nodes[i]? = some d) (hr : nodes[nodes.length - 1]? = some r)
    (hy : A[nodes.length - 1]? = some y) (ha : nodes[nodes.length / 2 - 1]? = some a) :
    ∃ h₁ h₂ h₃, h.cells r = some ⟨y, none, none⟩ ∧ setData h (some d) y = some h₁ ∧
      clearChild h₁ (some a) (some r) = some h₂ ∧
      binaryTreeNodeDestroy (levels h₂) h₂ (some r) = some h₃ ∧ h₃.outcomes = h.outcomes ∧
      Complete h₃ root nodes.dropLast (A.set i y).dropLast := by
  have hleaf : ∀ j, j = nodes.length - 1 → nodes[2 * j + 1]? = none ∧ nodes[2 * j + 2]? = none := by
    intro j hj
    exact ⟨List.getElem?_eq_none (by omega), List.getElem?_eq_none (by omega)⟩
  obtain ⟨hleaf₁, hleaf₂⟩ := hleaf _ rfl
  have hrn := hc.node _ r y hr hy
  rw [hleaf₁, hleaf₂] at hrn
  have hiA : i < A.length := by
    rw [← hc.length_eq]
    exact (List.getElem?_eq_some_iff.mp hd).1
  -- the last element is copied, which leaves the tree complete
  obtain ⟨h₁, hset, hcells₁, -, ho₁⟩ := setData_spec (hc.node i d _ hd (List.getElem?_eq_getElem hiA)) y
  have hc₁ := hc.set hd (hc.node i d _ hd (List.getElem?_eq_getElem hiA)) hcells₁
  obtain ⟨x, hx⟩ : ∃ x, (A.set i y)[nodes.length / 2 - 1]? = some x :=
    ⟨_, List.getElem?_eq_getElem (by rw [← hc₁.length_eq]; omega)⟩
  obtain ⟨z, hz⟩ : ∃ z, (A.set i y)[nodes.length - 1]? = some z :=
    ⟨_, List.getElem?_eq_getElem (by rw [← hc₁.length_eq]; omega)⟩
  obtain ⟨h₂, hclear, hcells₂, ho₂⟩ := clearChild_spec (hc₁.node _ a x ha hx) r
  have hrn₂ : h₂.cells r = some ⟨z, none, none⟩ := by
    rw [hcells₂, Function.update_of_ne (hc.ne ha hr (by omega)), hc₁.node _ r z hr hz, hleaf₁, hleaf₂]
  obtain ⟨h₃, hdestroy, hcells₃, ho₃⟩ := binaryTreeNodeDestroy_leaf hrn₂
  rw [hcells₂] at hcells₃
  exact ⟨h₁, h₂, h₃, hrn, hset, hclear, hdestroy, ho₃.trans (ho₂.trans ho₁),
    hc₁.dropLast (by omega) ha hx hr hcells₃⟩

/-- **The deletion** puts the last element where the last match is. -/
theorem binaryTreeDelete_spec (hc : Complete h root nodes A) (ho : h.outcomes = .allOk)
    (hsize : A.length ≤ 128) (x : Int) : ∃ root' h' nodes',
      binaryTreeDelete h root x = some (root', h') ∧ h'.outcomes = .allOk ∧
      Complete h' root' nodes' (deleted A x) := by
  cases hroot : root with
  | none =>
    subst hroot
    obtain ⟨rfl, rfl⟩ := hc.nil
    exact ⟨none, h, [], rfl, ho, hc⟩
  | some r0 =>
    obtain ⟨queue, queue', hcreate, henq, hloop⟩ := hc.deleteLoop ho hsize hroot x
    subst hroot
    cases hlast : lastWhere (fun y => decide (y = x)) A with
    | none =>
      refine ⟨some r0, h, nodes, ?_, ho, ?_⟩
      · simp [binaryTreeDelete, hcreate, henq, hloop, hlast]
      · rwa [deleted, hlast]
    | some i =>
      have hin : i < nodes.length := by
        rw [hc.length_eq]
        exact lastWhere_lt hlast
      obtain ⟨d, hd⟩ : ∃ d, nodes[i]? = some d := ⟨_, List.getElem?_eq_getElem hin⟩
      obtain ⟨r, hr⟩ : ∃ r, nodes[nodes.length - 1]? = some r :=
        ⟨_, List.getElem?_eq_getElem (by omega)⟩
      obtain ⟨y, hy⟩ : ∃ y, A[nodes.length - 1]? = some y :=
        ⟨_, List.getElem?_eq_getElem (by rw [← hc.length_eq]; omega)⟩
      have hdel : deleted A x = (A.set i y).dropLast := by
        rw [deleted, hlast, List.getLast?_eq_getElem?, ← hc.length_eq, hy]
      rw [hlast, Option.bind_some, hd, hr] at hloop
      by_cases hone : nodes.length / 2 = 0
      · -- the root is the only node
        obtain ⟨a, rfl⟩ := List.length_eq_one_iff.mp (show nodes.length = 1 by omega)
        obtain rfl : i = 0 := Nat.lt_one_iff.mp hin
        obtain rfl : d = r0 := Option.some.inj (hd.symm.trans hc.root.symm)
        obtain rfl : d = r := Option.some.inj (hd.symm.trans hr)
        obtain ⟨h', hdestroy, hcells, ho'⟩ := binaryTreeNodeDestroy_leaf (hc.node 0 d y hd hy)
        refine ⟨none, h', [], ?_, ho'.trans ho, ?_⟩
        · simp [binaryTreeDelete, hcreate, henq, hloop, hdestroy]
        · have hempty : (A.set 0 y).dropLast = [] := by
            rw [← List.length_eq_zero_iff, List.length_dropLast, List.length_set, ← hc.length_eq]
            rfl
          rw [hdel, hempty]
          exact hc.last (congrArg ([·]) (Option.some.inj hd)) hcells
      · obtain ⟨a, ha⟩ : ∃ a, nodes[nodes.length / 2 - 1]? = some a :=
          ⟨_, List.getElem?_eq_getElem (by omega)⟩
        obtain ⟨h₁, h₂, h₃, hload, hset, hclear, hdestroy, ho₃, hc₃⟩ := hc.remove hone hd hr hy ha
        rw [if_neg hone, ha] at hloop
        refine ⟨some r0, h₃, _, ?_, ho₃.trans ho, hdel ▸ hc₃⟩
        simp [binaryTreeDelete, hcreate, henq, hloop, Memory.load, hload, hset, hclear, hdestroy]

/-! ### Whole runs -/

/-- The state holds the array. -/
def Represents (s : State) (A : List Int) : Prop :=
  s.heap.outcomes = .allOk ∧ ∃ nodes, Complete s.heap s.root nodes A

theorem Complete.isNone (hc : Complete h root nodes A) : root.isNone = A.isEmpty := by
  cases root with
  | none =>
    rw [hc.nil.2]
    rfl
  | some r =>
    have hpos := (List.getElem?_eq_some_iff.mp hc.root.symm).1
    rw [hc.length_eq] at hpos
    cases A with
    | nil => exact absurd hpos (Nat.lt_irrefl 0)
    | cons x A => rfl

theorem refines : Refines Call.run spec (fun A _ => A.length ≤ 128) Represents := by
  refine ⟨fun {s A c} hs hsize => ?_⟩
  obtain ⟨ho, nodes, hc⟩ := hs
  cases c with
  | insert x =>
    obtain ⟨new, h', hrun, ho', hc'⟩ := binaryTreeInsert_spec hc ho hsize x
    refine ⟨⟨h', if s.root.isNone then some new else s.root⟩, ?_, ho', _, hc'⟩
    rw [Call.run, hrun]
    rfl
  | delete x =>
    obtain ⟨root', h', nodes', hrun, ho', hc'⟩ := binaryTreeDelete_spec hc ho hsize x
    refine ⟨⟨h', root'⟩, ?_, ho', nodes', hc'⟩
    rw [Call.run, hrun, spec, ← hc'.isNone]
    rfl

theorem start_represents : Represents start [] :=
  ⟨rfl, [], rfl, rfl, fun _ _ _ h => (by cases h), List.nodup_nil, fun _ h => absurd rfl h⟩

/-- **The tree stays complete.**  After every sequence of insertions and deletions that never
starts one with more than 128 nodes, no assertion has failed, the functions have returned what
they should, and the tree is the complete binary tree of the array that the specification says;
level order is the order of the array. -/
theorem binaryTree_complete (cs : List Call)
    (hsize : AllLegal spec (fun A _ => A.length ≤ 128) [] cs) : ∃ s nodes l,
    calls Call.run start cs = some ((specCalls spec [] cs).1, s) ∧
    Complete s.heap s.root nodes (specCalls spec [] cs).2 ∧
    Visits s.heap.cells children s.root.toList l ∧
    l.map (fun n => n.2.data) = (specCalls spec [] cs).2 := by
  obtain ⟨s, hr, -, nodes, hc⟩ := refines.calls start_represents hsize
  exact ⟨s, nodes, records nodes _, hr, hc, hc.visits, records_data hc.length_eq⟩

/-- Two insertions, and a deletion of the root's datum. -/
theorem binaryTree_complete_example : ∃ s nodes l,
    calls Call.run start [.insert 1, .insert 2, .delete 1] = some ([false, false, false], s) ∧
    Complete s.heap s.root nodes [2] ∧ Visits s.heap.cells children s.root.toList l ∧
    l.map (fun n => n.2.data) = [2] :=
  binaryTree_complete [.insert 1, .insert 2, .delete 1]
    ⟨by decide, by decide, by decide, trivial⟩

end DataStructures.BinaryTree
