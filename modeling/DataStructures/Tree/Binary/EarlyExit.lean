import DataStructures.Tree.Binary.Problems
import DataStructures.Tree.Binary.Traversal

/-!
# The loops that may stop early

The insertion stops at the first node with a child missing, and the division at the first half.
Only what they put into the queue before they stop has to fit: `binaryTreeInsert_isSome` and
`binaryTreeDivideTwoHalves_isSome`.
-/

namespace DataStructures.BinaryTree

open Lib Queue BreadthFirst LevelOrder

variable {h : Heap} {root : Ptr} {t : Tree} {a k : Nat} {n : BinaryTreeNode} {q : List Nat}
  {queue : QueueT Nat} {room rounds : Nat} {l pre post : List (Nat × BinaryTreeNode)} {data x y : Int}

/-! ### The insertion -/

/-- **The place for the new node is not reached** if the queue is full before. -/
theorem insertLoop_full (hv : Visits h.cells children q (pre ++ (a, n) :: post))
    (hfull : ∀ m ∈ pre, m.2.left ≠ none ∧ m.2.right ≠ none) (hq : Holds queue q room)
    (hroom : room < 2 * pre.length + n.left.toList.length) : insertLoop data rounds h queue = none := by
  induction pre generalizing q queue room rounds with
  | nil =>
    cases rounds with
    | zero => rfl
    | succ rounds =>
      cases hv with
      | @step _ _ q _ hn hv =>
        obtain ⟨queue', hdeq, hq', -⟩ := hq.dequeue
        have hload : h.load (some a) = some n := hn
        rw [List.length_nil, Nat.mul_zero, Nat.zero_add] at hroom
        have hl : n.left ≠ none := by
          intro hl
          rw [hl] at hroom
          exact Nat.not_lt_zero _ hroom
        have henq := enqueueChild_full hq' hroom
        rw [enqueueChild_some _ hl] at henq
        rw [insertLoop, hq.isEmpty, hdeq]
        simp [hload, hl, henq]
  | cons m pre ih =>
    cases rounds with
    | zero => rfl
    | succ rounds =>
      cases hv with
      | @step b m q _ hn hv =>
        obtain ⟨hl, hright⟩ := hfull (b, m) List.mem_cons_self
        obtain ⟨queue', hdeq, hq', -⟩ := hq.dequeue
        have hload : h.load (some b) = some m := hn
        have hlen₁ : m.left.toList.length = 1 := toList_length_of_ne hl
        have hlen₂ : m.right.toList.length = 1 := toList_length_of_ne hright
        rw [List.length_cons] at hroom
        rw [insertLoop, hq.isEmpty, hdeq]
        by_cases hone : 1 ≤ room
        · obtain ⟨queue₁, hr₁, hq₁, -⟩ := enqueueChild_spec hq' m.left (by omega)
          rw [enqueueChild_some _ hl] at hr₁
          by_cases htwo : 2 ≤ room
          · obtain ⟨queue₂, hr₂, hq₂, -⟩ := enqueueChild_spec hq₁ m.right (by omega)
            rw [List.append_assoc] at hq₂
            rw [enqueueChild_some _ hright] at hr₂
            have hrest : insertLoop data rounds h queue₂ = none :=
              ih hv (fun m hm => hfull m (List.mem_cons_of_mem _ hm)) hq₂ (by omega)
            simp [hload, hl, hright, hr₁, hr₂, hrest]
          · have henq := enqueueChild_full hq₁ (p := m.right) (by omega)
            rw [enqueueChild_some _ hright] at henq
            simp [hload, hl, hright, hr₁, henq]
        · have henq := enqueueChild_full hq' (p := m.left) (by omega)
          rw [enqueueChild_some _ hl] at henq
          simp [hload, hl, henq]

/-- A child is missing. -/
abbrev IsOpen (n : Nat × BinaryTreeNode) : Bool := n.2.left.isNone || n.2.right.isNone

theorem not_isOpen {n : Nat × BinaryTreeNode} (hn : IsOpen n = false) :
    n.2.left ≠ none ∧ n.2.right ≠ none := by
  rw [Bool.or_eq_false_iff, Option.isNone_eq_false_iff, Option.isNone_eq_false_iff,
    Option.isSome_iff_ne_none, Option.isSome_iff_ne_none] at hn
  exact hn

theorem isOpen_nodeOf {s : Tree} (hs : s ≠ .nil) :
    IsOpen (nodeOf s) = true ↔ s.left = .nil ∨ s.right = .nil := by
  cases s with
  | nil => exact absurd rfl hs
  | node n l r =>
    rw [Bool.or_eq_true, nodeOf, Option.isNone_iff_eq_none, Option.isNone_iff_eq_none, ptr_eq_none,
      ptr_eq_none]
    rfl

/-- **Some node has a child missing**: a first one in level order. -/
theorem exists_open (hv : Visits h.cells children q l) (hl : l ≠ []) (hq : 0 < q.length) :
    ∃ pre m post, l = pre ++ m :: post ∧ IsOpen m = true ∧ ∀ m ∈ pre, IsOpen m = false := by
  cases hfind : l.find? IsOpen with
  | some m =>
    obtain ⟨hm, pre, post, rfl, hpre⟩ := List.find?_eq_some_iff_append.mp hfind
    exact ⟨pre, m, post, rfl, hm, fun m hm => by simpa using hpre m hm⟩
  | none =>
    -- with two children each they would be more than all
    have hfull : ∀ m ∈ l, (children m.2).length = 2 := by
      intro m hm
      obtain ⟨hleft, hright⟩ := not_isOpen (Bool.eq_false_iff.mpr (List.find?_eq_none.mp hfind m hm))
      rw [children, List.length_append, toList_length_of_ne hleft, toList_length_of_ne hright]
    have hcount := hv.length_eq
    rw [List.length_flatMap, List.map_congr_left hfull, List.map_const', List.sum_replicate_nat] at hcount
    omega

/-- The first 64 nodes, as trees. -/
theorem exists_open_take (hl : levelOrder (stored t) = pre ++ (a, n) :: post)
    (hopen : IsOpen (a, n) = true) (hpre : ∀ m ∈ pre, IsOpen m = false) :
    (∃ s ∈ (levelOrder (subtrees t)).take 64, s.left = .nil ∨ s.right = .nil) ↔ pre.length < 64 := by
  have hmap : ((levelOrder (subtrees t)).take 64).map nodeOf = (pre ++ (a, n) :: post).take 64 := by
    rw [List.map_take, ← levelOrder_stored, hl]
  constructor
  · rintro ⟨s, hs, hsopen⟩
    by_contra hlen
    have hm : nodeOf s ∈ (pre ++ (a, n) :: post).take 64 := hmap ▸ List.mem_map_of_mem hs
    rw [List.take_append_of_le_length (Nat.le_of_not_lt hlen)] at hm
    have htrue := (isOpen_nodeOf (ne_nil_of_mem_subtrees (List.mem_of_mem_take hs))).mpr hsopen
    rw [hpre _ (List.mem_of_mem_take hm)] at htrue
    cases htrue
  · intro hlen
    have hm : (a, n) ∈ (pre ++ (a, n) :: post).take 64 := by
      rw [List.take_append, List.take_of_length_le (by omega)]
      obtain ⟨d, hd⟩ := Nat.exists_eq_add_of_lt hlen
      rw [show 64 - pre.length = d + 1 by omega, List.take_succ_cons]
      exact List.mem_append_right _ List.mem_cons_self
    rw [← hmap] at hm
    obtain ⟨s, hs, hns⟩ := List.mem_map.mp hm
    refine ⟨s, hs, (isOpen_nodeOf (ne_nil_of_mem_subtrees (List.mem_of_mem_take hs))).mp ?_⟩
    rw [hns, hopen]

/-- **The insertion completes** if the tree is empty or one of the first 64 nodes has a child
missing. -/
theorem binaryTreeInsert_isSome (hs : Spans h root t) (ho : h.outcomes = .allOk) (x : Int) :
    (binaryTreeInsert h root x).isSome ↔
      t = .nil ∨ ∃ s ∈ (levelOrder (subtrees t)).take 64, s.left = .nil ∨ s.right = .nil := by
  cases root with
  | none =>
    obtain rfl := hs.eq_nil
    exact ⟨fun _ => Or.inl rfl, fun _ => rfl⟩
  | some r =>
    have hl : levelOrder (stored t) ≠ [] := by
      intro hnil
      have hlen := congrArg List.length hs.visits.places
      rw [hnil] at hlen
      cases hlen
    obtain ⟨pre, ⟨a, n⟩, post, hsplit, hopen, hpre⟩ := exists_open hs.visits hl (Nat.succ_pos 0)
    have hv := hs.visits
    rw [hsplit] at hv
    have hfull : ∀ m ∈ pre, m.2.left ≠ none ∧ m.2.right ≠ none := fun m hm => not_isOpen (hpre m hm)
    have hle := Option.length_toList_le (o := n.left)
    obtain ⟨queue, hcreate, hempty, hqsize⟩ := createQueue_ok ho
    obtain ⟨queue', henq, hq, hqsize'⟩ := enqueue_root queue hempty hqsize r
    rw [or_iff_right hs.ne_nil, exists_open_take hsplit hopen hpre, binaryTreeInsert, Option.isNone_some,
      if_neg Bool.false_ne_true, hcreate]
    simp only [Option.bind_eq_bind, Option.bind_some, henq]
    by_cases hroom : pre.length < 64
    · rw [Bool.or_eq_true, Option.isNone_iff_eq_none, Option.isNone_iff_eq_none] at hopen
      have hr : pre.length < queue'.size + 1 := by omega
      obtain ⟨new, h', hrun, -⟩ := insertLoop_spec hv hfull hopen hq (by omega) hr ho x
      rw [hrun]
      exact ⟨fun _ => hroom, fun _ => rfl⟩
    · rw [insertLoop_full hv hfull hq (by omega)]
      exact ⟨fun h => absurd h Bool.false_ne_true, fun hlt => absurd hlt hroom⟩

/-! ### The division into halves -/

/-- **The size is the number of nodes**, if that is an `int`. -/
theorem binaryTreeSize_spec {s : Tree} (hn : ∀ n ∈ levelOrder (stored s), h.cells n.1 = some n.2)
    {depth : Nat} (hd : s.height < depth) : binaryTreeSize depth h (ptr s) =
      if (s.numNodes : Int) ≤ intMax then some (s.numNodes : Int) else none := by
  induction s generalizing depth with
  | nil =>
    obtain ⟨depth, rfl⟩ := Nat.exists_eq_add_of_lt hd
    rfl
  | node n l r ihl ihr =>
    cases depth with
    | zero => exact absurd hd (Nat.not_lt_zero _)
    | succ depth =>
      rw [BinaryTree.height] at hd
      obtain ⟨hroot, hnl, hnr⟩ := forall_mem_levelOrder_node.mp hn
      have hload : h.load (some n.1) = some (nodeOf (.node n l r)).2 := hroot
      have hdl : l.height < depth := by omega
      have hdr : r.height < depth := by omega
      have hl := ihl hnl hdl
      have hr := ihr hnr hdr
      have hcount : ((BinaryTree.node n l r).numNodes : Int) = l.numNodes + r.numNodes + 1 := by
        rw [BinaryTree.numNodes]
        omega
      rw [ptr, binaryTreeSize, hload, Option.bind_eq_bind, Option.bind_some, nodeOf, hl, hr, hcount]
      have hbound : intMax = 2147483647 := rfl
      by_cases htotal : (l.numNodes : Int) + r.numNodes + 1 ≤ intMax
      · rw [if_pos (by omega), if_pos (by omega), if_pos htotal]
        simp only [Option.bind_eq_bind, Option.bind_some]
        rw [toInt_of (by omega), Option.bind_some, toInt_of (by omega)]
      · -- a sum overflows at the latest at the root
        rw [if_neg htotal]
        by_cases hleft : (l.numNodes : Int) ≤ intMax
        · by_cases hright : (r.numNodes : Int) ≤ intMax
          · rw [if_pos hleft, if_pos hright]
            simp only [Option.bind_eq_bind, Option.bind_some]
            by_cases hsum : (l.numNodes : Int) + r.numNodes ≤ intMax
            · rw [toInt_of (by omega), Option.bind_some, toInt, if_neg (by omega)]
            · rw [toInt, if_neg (by omega)]
              rfl
          · rw [if_pos hleft, if_neg hright]
            rfl
        · rw [if_neg hleft]
          rfl

/-- The subtrees in `pre` are passed: none of them is half as large as the tree. -/
abbrev Passed (pre : List Tree) (total : Nat) : Prop := ∀ s ∈ pre, 2 * s.numNodes ≠ total

/-- The nodes below the roots of the subtrees. -/
abbrev reached (pre : List Tree) : List Nat := pre.flatMap (fun s => children (nodeOf s).2)

theorem length_reached_cons (s : Tree) (pre : List Tree) :
    (reached (s :: pre)).length = (children (nodeOf s).2).length + (reached pre).length := by
  rw [reached, List.flatMap_cons, List.length_append]

/-- What the loop puts into the queue before it comes to a half fits into `room` slots. -/
abbrev FitsToHalf (subs : List Tree) (total room : Nat) : Prop :=
  ∀ pre, pre <+: subs → Passed pre total → (reached pre).length ≤ room

section FitsToHalf

variable {s : Tree} {subs : List Tree} {total : Nat}

/-- At a half no subtree may be passed any more. -/
theorem fitsToHalf_of_half (hhalf : 2 * s.numNodes = total) : FitsToHalf (s :: subs) total room := by
  intro pre hpre hpass
  rcases List.prefix_cons_iff.mp hpre with rfl | ⟨pre, rfl, -⟩
  · exact Nat.zero_le _
  · exact absurd hhalf (hpass s List.mem_cons_self)

theorem fitsToHalf_cons (hhalf : 2 * s.numNodes ≠ total)
    (hroom : (children (nodeOf s).2).length ≤ room) :
    FitsToHalf subs total (room - (children (nodeOf s).2).length) ↔
      FitsToHalf (s :: subs) total room := by
  refine ⟨fun hall pre hpre hpass => ?_, fun hall pre hpre hpass => ?_⟩
  · rcases List.prefix_cons_iff.mp hpre with rfl | ⟨pre, rfl, hpre'⟩
    · exact Nat.zero_le _
    · have hle := hall pre hpre' (fun u hu => hpass u (List.mem_cons_of_mem _ hu))
      rw [length_reached_cons]
      omega
  · have hle := hall (s :: pre) ((List.prefix_cons_inj s).mpr hpre)
      (List.forall_mem_cons.mpr ⟨hhalf, hpass⟩)
    rw [length_reached_cons] at hle
    omega

theorem FitsToHalf.children_le (h : FitsToHalf (s :: subs) total room)
    (hhalf : 2 * s.numNodes ≠ total) : (children (nodeOf s).2).length ≤ room := by
  have hle := h [s] ((List.prefix_cons_inj s).mpr List.nil_prefix)
    (List.forall_mem_singleton.mpr hhalf)
  rwa [reached, List.flatMap_singleton] at hle

end FitsToHalf

/-- **The loop stops at a half**; what it has reached until then has to fit. -/
theorem divideLoop_spec {subs : List Tree} {total : Nat}
    (hv : Visits h.cells children q (subs.map nodeOf))
    (hsize : ∀ s ∈ subs, binaryTreeSize (levels h) h (some (nodeOf s).1) = some (s.numNodes : Int) ∧
      s.numNodes ≤ total)
    (htotal : (total : Int) ≤ intMax) (hq : Holds queue q room) (hr : q.length + room < rounds) :
    (divideLoop h total rounds queue).isSome ↔ FitsToHalf subs total room := by
  induction subs generalizing q queue room rounds with
  | nil =>
    cases hv
    obtain ⟨rounds, rfl⟩ := Nat.exists_eq_add_of_lt hr
    rw [divideLoop, hq.isEmpty]
    refine ⟨fun _ pre hpre _ => ?_, fun _ => rfl⟩
    rw [List.prefix_nil.mp hpre]
    exact Nat.zero_le _
  | cons s subs ih =>
    cases rounds with
    | zero => exact absurd hr (Nat.not_lt_zero _)
    | succ rounds =>
      rw [List.map_cons] at hv
      obtain ⟨q, rfl, hn, hv⟩ := hv.cons
      obtain ⟨queue', hdeq, hq', -⟩ := hq.dequeue
      have hload : h.load (some (nodeOf s).1) = some (nodeOf s).2 := hn
      obtain ⟨hs, hle⟩ := hsize s List.mem_cons_self
      have hbound : intMax = 2147483647 := rfl
      have hrest : toInt ((total : Int) - s.numNodes) = some ((total : Int) - s.numNodes) :=
        toInt_of (by omega)
      rw [divideLoop, hq.isEmpty, hdeq]
      simp only [List.isEmpty_cons, Bool.false_eq_true, if_false, Option.bind_eq_bind,
        Option.bind_some, hload, hs, hrest]
      by_cases hhalf : 2 * s.numNodes = total
      · rw [if_pos (by omega)]
        exact ⟨fun _ => fitsToHalf_of_half hhalf, fun _ => rfl⟩
      · rw [if_neg (by omega)]
        rw [List.length_cons] at hr
        by_cases hroom : (children (nodeOf s).2).length ≤ room
        · obtain ⟨queue₁, hr₁, hq₁⟩ :=
            enqueueChildren_ok hq' (nodeOf s).2.left (nodeOf s).2.right hroom
          have hq₁ : Holds queue₁ (q ++ children (nodeOf s).2) (room - (children (nodeOf s).2).length) :=
            hq₁
          have hr' : (q ++ children (nodeOf s).2).length + (room - (children (nodeOf s).2).length) <
              rounds := by
            rw [length_enqueued hroom]
            omega
          have hnext := ih hv (fun u hu => hsize u (List.mem_cons_of_mem _ hu)) hq₁ hr'
          rw [hr₁, Option.bind_some, hnext]
          exact fitsToHalf_cons hhalf hroom
        · rw [enqueueChildren_full hq' _ _ (Nat.lt_of_not_le hroom)]
          exact ⟨fun h => absurd h Bool.false_ne_true, fun hall => absurd (hall.children_le hhalf) hroom⟩

/-- **The division completes** if the size is an `int` and what is reached before the first half
fits into the queue. -/
theorem binaryTreeDivideTwoHalves_isSome (hs : Spans h root t) (ho : h.outcomes = .allOk) :
    (binaryTreeDivideTwoHalves h root).isSome ↔ (t.numNodes : Int) ≤ intMax ∧
      ∀ pre, pre <+: levelOrder (subtrees t) → Passed pre t.numNodes →
        1 + (reached pre).length ≤ 128 := by
  cases root with
  | none =>
    obtain rfl := hs.eq_nil
    refine ⟨fun _ => ⟨by decide, fun pre hpre _ => ?_⟩, fun _ => rfl⟩
    rw [List.prefix_nil.mp hpre]
    decide
  | some r =>
    have hsize := binaryTreeSize_spec hs.node hs.height_lt
    rw [← hs.root] at hsize
    rw [binaryTreeDivideTwoHalves, Option.isNone_some, if_neg Bool.false_ne_true, hsize]
    by_cases hint : (t.numNodes : Int) ≤ intMax
    · obtain ⟨queue, hcreate, hempty, hqsize⟩ := createQueue_ok ho
      obtain ⟨queue', henq, hq, hqsize'⟩ := enqueue_root queue hempty hqsize r
      have hv := hs.visits
      rw [levelOrder_stored] at hv
      have hsub : ∀ s ∈ levelOrder (subtrees t),
          binaryTreeSize (levels h) h (some (nodeOf s).1) = some (s.numNodes : Int) ∧
            s.numNodes ≤ t.numNodes := by
        intro s hm
        obtain ⟨hle, hheight⟩ := numNodes_le_of_mem_subtrees hm
        have hspec := binaryTreeSize_spec (fun n hn => hs.node n (mem_stored_of_subtree hm hn))
          (Nat.lt_of_le_of_lt hheight hs.height_lt)
        rw [if_pos (by omega)] at hspec
        refine ⟨?_, hle⟩
        cases s with
        | nil => exact absurd rfl (ne_nil_of_mem_subtrees hm)
        | node n l r => exact hspec
      have hloop := divideLoop_spec hv hsub hint hq (rounds_suffice r hqsize')
      rw [if_pos hint]
      simp only [Option.bind_eq_bind, Option.bind_some, hcreate, henq]
      rw [hloop]
      refine ⟨fun hall => ⟨hint, fun pre hpre hpass => ?_⟩, fun hall pre hpre hpass => ?_⟩
      · have hle := hall pre hpre hpass
        omega
      · have hle := hall.2 pre hpre hpass
        omega
    · rw [if_neg hint]
      exact ⟨fun h => absurd h Bool.false_ne_true, fun hall => absurd hall.1 hint⟩

end DataStructures.BinaryTree
