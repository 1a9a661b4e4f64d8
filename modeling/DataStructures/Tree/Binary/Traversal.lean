import DataStructures.Stack.Lifo
import DataStructures.Tree.Binary.Shape

/-!
# The loops that go through a whole tree

A loop over the queue ends if all the nodes it comes to fit into the queue, and fails an assertion
if they do not: `levelOrderPrintLoop_spec`, `pushLoop_spec` and `depthLoop_spec`, for any traversal
`Visits load next q l` with `room` free slots.
-/

namespace DataStructures.BinaryTree

open Lib BreadthFirst LevelOrder

variable {N D : Type} {left right : N → Ptr} {m : Memory N} {h : Heap} {a : Nat}
  {q : List Nat} {queue : Queue.QueueT Nat} {room rounds : Nat} {root : Ptr} {t : Tree}

/-! ### The queue -/

theorem enqueueChild_full (hq : Queue.Holds queue q room) {p : Ptr} (hp : room < p.toList.length) :
    enqueueChild queue p = none := by
  cases p with
  | none => exact absurd hp (Nat.not_lt_zero _)
  | some a =>
    obtain rfl : room = 0 := Nat.lt_one_iff.mp hp
    rw [enqueueChild, Option.isSome_some, if_pos rfl, assertEnqueue, hq.enqueue_full]
    rfl

/-- **Both children fit into the queue**, or an assertion fails. -/
theorem enqueueChildren_ok (hq : Queue.Holds queue q room) (p r : Ptr)
    (hroom : (p.toList ++ r.toList).length ≤ room) : ∃ queue', enqueueChildren queue p r = some queue' ∧
      Queue.Holds queue' (q ++ (p.toList ++ r.toList)) (room - (p.toList ++ r.toList).length) := by
  rw [List.length_append] at hroom
  obtain ⟨queue₁, queue₂, hr₁, hr₂, hq₂⟩ := enqueueBoth_spec hq p r hroom
  refine ⟨queue₂, ?_, ?_⟩
  · rw [enqueueChildren, hr₁]
    exact hr₂
  · rwa [List.length_append, ← Nat.sub_sub]

theorem enqueueChildren_full (hq : Queue.Holds queue q room) (p r : Ptr)
    (hroom : room < (p.toList ++ r.toList).length) : enqueueChildren queue p r = none := by
  rw [List.length_append] at hroom
  rw [enqueueChildren]
  by_cases hp : p.toList.length ≤ room
  · obtain ⟨queue₁, hr₁, hq₁, -⟩ := enqueueChild_spec hq p hp
    rw [hr₁]
    exact enqueueChild_full hq₁ (by omega)
  · rw [enqueueChild_full hq (by omega)]
    rfl

/-- The elements and the free slots are as many as before. -/
theorem length_enqueued {k : List Nat} (hroom : k.length ≤ room) :
    (q ++ k).length + (room - k.length) = q.length + room := by
  rw [List.length_append]
  omega

/-- With the root in the queue the loops have rounds enough. -/
theorem rounds_suffice (a : Nat) (hsize : queue.size = 128) :
    (some a).toList.length + 127 < queue.size + 1 := by
  rw [hsize]
  exact Nat.lt_succ_self 128

/-! ### Printing -/

/-- Where the pointers of a node lead. -/
abbrev below (left right : N → Ptr) (n : N) : List Nat := (left n).toList ++ (right n).toList

/-- There is no room for what will be visited. -/
theorem not_fit (left right : N → Ptr) {n : N} {l : List (Nat × N)}
    (hv : Visits m.cells (below left right) (q ++ below left right n) l)
    (hfull : room < (below left right n).length) :
    ¬ ((a, n) :: l).length ≤ (a :: q).length + room := by
  have hle := hv.length_le
  rw [List.length_append] at hle
  rw [List.length_cons, List.length_cons]
  omega

/-- **The loop prints all nodes**, if they fit into the queue. -/
theorem levelOrderPrintLoop_spec (data : N → D) {l : List (Nat × N)}
    (hv : Visits m.cells (below left right) q l) (hq : Queue.Holds queue q room) (hr : q.length + room < rounds) :
    levelOrderPrintLoop left right data m rounds queue =
      if l.length ≤ q.length + room then some (l.map (fun n => data n.2)) else none := by
  induction hv generalizing queue room rounds with
  | done =>
    obtain ⟨rounds, rfl⟩ := Nat.exists_eq_add_of_lt hr
    rw [levelOrderPrintLoop, hq.isEmpty]
    exact (if_pos (Nat.zero_le _)).symm
  | @step a n q l hn hv ih =>
    cases rounds with
    | zero => exact absurd hr (Nat.not_lt_zero _)
    | succ rounds =>
      obtain ⟨queue', hdeq, hq', -⟩ := hq.dequeue
      have hload : m.load (some a) = some n := hn
      rw [levelOrderPrintLoop, hq.isEmpty, hdeq]
      simp only [List.isEmpty_cons, Bool.false_eq_true, if_false, Option.bind_eq_bind,
        Option.bind_some, hload]
      rw [List.length_cons] at hr
      by_cases hroom : (below left right n).length ≤ room
      · obtain ⟨queue₁, hr₁, hq₁⟩ := enqueueChildren_ok hq' (left n) (right n) hroom
        have hlen := length_enqueued (q := q) hroom
        rw [hr₁, Option.bind_some, ih hq₁ (by rw [hlen]; omega), hlen, List.length_cons, List.length_cons]
        by_cases hfit : l.length ≤ q.length + room
        · rw [if_pos hfit, if_pos (by omega)]
          rfl
        · rw [if_neg hfit, if_neg (by omega)]
          rfl
      · rw [enqueueChildren_full hq' _ _ (Nat.lt_of_not_le hroom),
          if_neg (not_fit left right hv (Nat.lt_of_not_le hroom))]
        rfl

/-- **A tree is printed in level order**, if it has no more nodes than the queue has slots. -/
theorem levelOrderPrint_of (data : N → D) {nodes : BinaryTree (Nat × N)} {p : Ptr}
    (hl : Linked m.cells (below left right) nodes) (hroots : roots nodes = p.toList)
    (ho : m.outcomes.first = true ∧ m.outcomes.rest.first = true) :
    levelOrderPrint left right data m p =
      if nodes.numNodes ≤ 128 then some ((levelOrder nodes).map (fun n => data n.2)) else none := by
  have hv := visits_levelOrder hl
  cases p with
  | none =>
    cases nodes with
    | nil => rfl
    | node n l r => cases hroots
  | some a =>
    obtain ⟨queue, hcreate, hempty, hqsize⟩ := Queue.queueCreate_of (E := Nat) ho.1 ho.2 128
    obtain ⟨queue', henq, hq, hqsize'⟩ := enqueue_root queue hempty hqsize a
    rw [hroots] at hv
    have hloop := levelOrderPrintLoop_spec data hv hq (rounds_suffice a hqsize')
    rw [length_levelOrder] at hloop
    rw [levelOrderPrint, Option.isNone_some, if_neg Bool.false_ne_true, hcreate]
    dsimp only
    rw [henq]
    exact hloop

/-- Without memory for the queue nothing is printed. -/
theorem levelOrderPrint_refused (data : N → D) (p : Ptr)
    (ho : ¬ (m.outcomes.first = true ∧ m.outcomes.rest.first = true)) :
    levelOrderPrint left right data m p = some [] := by
  obtain ⟨o, hcreate⟩ := Queue.queueCreate_fails (E := Nat) ho 128
  rw [levelOrderPrint, hcreate]
  exact ite_self _

theorem levelOrderPrint_spec (data : N → D) {nodes : BinaryTree (Nat × N)} {p : Ptr}
    (hl : Linked m.cells (below left right) nodes) (hroots : roots nodes = p.toList)
    (ho : m.outcomes = .allOk) : levelOrderPrint left right data m p =
      if nodes.numNodes ≤ 128 then some ((levelOrder nodes).map (fun n => data n.2)) else none :=
  levelOrderPrint_of data hl hroots (by rw [ho]; exact ⟨rfl, rfl⟩)

/-! ### Printing in reverse -/

/-- **The loop pushes all nodes**, if they fit into the queue and no push is refused. -/
theorem pushLoop_spec {l : List (Nat × BinaryTreeNode)} (hv : Visits h.cells children q l)
    (hq : Queue.Holds queue q room) (hr : q.length + room < rounds) {stack : Stack.StackT}
    {entries : List (Nat × Ptr)} (hs : Stack.Keeps stack entries) :
    (l.length ≤ q.length + room ∧ stack.mem.outcomes.Succeed l.length → ∃ stack' entries',
      pushLoop h rounds queue stack = some stack' ∧ Stack.Keeps stack' entries' ∧
      entries'.map Prod.snd = (l.map (fun n => some n.1)).reverse ++ entries.map Prod.snd) ∧
    (¬ (l.length ≤ q.length + room ∧ stack.mem.outcomes.Succeed l.length) →
      pushLoop h rounds queue stack = none) := by
  induction hv generalizing queue room rounds stack entries with
  | done =>
    obtain ⟨rounds, rfl⟩ := Nat.exists_eq_add_of_lt hr
    refine ⟨fun _ => ⟨stack, entries, ?_, hs, rfl⟩, fun hn =>
      absurd ⟨Nat.zero_le _, Outcomes.succeed_zero _⟩ hn⟩
    rw [pushLoop, hq.isEmpty]
    rfl
  | @step a n q l hn hv ih =>
    cases rounds with
    | zero => exact absurd hr (Nat.not_lt_zero _)
    | succ rounds =>
      obtain ⟨queue', hdeq, hq', -⟩ := hq.dequeue
      have hload : h.load (some a) = some n := hn
      rw [pushLoop, hq.isEmpty, hdeq, List.length_cons, Outcomes.succeed_succ]
      simp only [List.isEmpty_cons, Bool.false_eq_true, if_false, Option.bind_eq_bind, Option.bind_some]
      by_cases ho : stack.mem.outcomes.first = true
      · obtain ⟨stack₁, e, hpush, hs₁, hout⟩ := hs.push ho (some a)
        have hassert : assertPush stack (some a) = some stack₁ := by
          rw [assertPush, hpush]
          exact if_pos rfl
        simp only [hassert, hload, Option.bind_some]
        rw [List.length_cons] at hr
        by_cases hroom : (children n).length ≤ room
        · obtain ⟨queue₁, hr₁, hq₁⟩ := enqueueChildren_ok hq' n.left n.right hroom
          have hq₁ : Queue.Holds queue₁ (q ++ children n) (room - (children n).length) := hq₁
          have hlen := length_enqueued (q := q) hroom
          have hr' : (q ++ children n).length + (room - (children n).length) < rounds := by
            rw [hlen]
            omega
          obtain ⟨hfit, hfull⟩ := ih hq₁ hr' hs₁
          rw [hr₁, Option.bind_some, List.length_cons]
          rw [hlen, hout] at hfit hfull
          refine ⟨fun hall => ?_, fun hn => hfull (fun hrest => hn ⟨by omega, ho, hrest.2⟩)⟩
          obtain ⟨stack', entries', hrun, hs', hdata⟩ := hfit ⟨by omega, hall.2.2⟩
          refine ⟨stack', entries', hrun, hs', ?_⟩
          rw [hdata, List.map_cons, List.map_cons, List.reverse_cons, List.append_assoc]
          rfl
        · have hnot : ¬ ((a, n) :: l).length ≤ (a :: q).length + room :=
            not_fit (m := h) BinaryTreeNode.left BinaryTreeNode.right hv (Nat.lt_of_not_le hroom)
          rw [enqueueChildren_full hq' _ _ (Nat.lt_of_not_le hroom)]
          exact ⟨fun hall => absurd hall.1 hnot, fun _ => rfl⟩
      · have hpush := Stack.push_refused (Bool.not_eq_true _ ▸ ho) (some a)
        have hassert : assertPush stack (some a) = none := by
          rw [assertPush, hpush]
          exact if_neg (by decide)
        rw [hassert]
        exact ⟨fun hall => absurd hall.2.1 ho, fun _ => rfl⟩

/-- **The loop prints what is on the stack.** -/
theorem popLoop_spec {l : List (Nat × BinaryTreeNode)} (hl : ∀ n ∈ l, h.cells n.1 = some n.2)
    {stack : Stack.StackT} {entries : List (Nat × Ptr)} (hs : Stack.Keeps stack entries)
    (he : entries.map Prod.snd = l.map (fun n => some n.1)) (hr : l.length < rounds) :
    popLoop h rounds stack = some (l.map (fun n => n.2.data)) := by
  induction l generalizing stack entries rounds with
  | nil =>
    obtain ⟨rounds, rfl⟩ := Nat.exists_eq_add_of_lt hr
    rw [popLoop, if_pos (hs.isEmpty_iff.mpr (List.map_eq_nil_iff.mp he))]
    rfl
  | cons n l ih =>
    cases rounds with
    | zero => exact absurd hr (Nat.not_lt_zero _)
    | succ rounds =>
      cases entries with
      | nil => cases he
      | cons e entries =>
        rw [List.map_cons, List.map_cons, List.cons.injEq] at he
        obtain ⟨stack', hpop, hs', -⟩ := hs.pop
        have hload : h.load (some n.1) = some n.2 := hl n List.mem_cons_self
        have hrest := ih (fun m hm => hl m (List.mem_cons_of_mem _ hm)) hs' he.2
          (Nat.lt_of_succ_lt_succ hr)
        rw [popLoop, if_neg (fun hempty => absurd (hs.isEmpty_iff.mp hempty) nofun), hpop, he.1]
        simp only [Option.bind_eq_bind, Option.bind_some, hload, hrest, List.map_cons]
        rfl

/-- A memory of list nodes that are linked to themselves. -/
def selfLinks : Lib.Store Stack.Node := fun n => ⟨n, n⟩

/-- The outcomes a function with a stack and a queue has to go through. -/
theorem succeed_stack_queue {o : Outcomes} {n : Nat} : o.Succeed (n + 3) ↔
    o.first = true ∧ (o.rest.first = true ∧ o.rest.rest.first = true) ∧ o.rest.rest.rest.Succeed n := by
  rw [Outcomes.succeed_succ, Outcomes.succeed_succ, Outcomes.succeed_succ, and_assoc]

/-- **A tree is printed in reverse**, if it has no more nodes than the queue has slots and no
allocation is refused. -/
theorem reversePrint_outcomes (hs : Spans h root t) (ht : t ≠ .nil) (links : Lib.Store Stack.Node) :
    (t.numNodes ≤ 128 ∧ h.outcomes.Succeed (t.numNodes + 3) →
      binaryTreeLevelOrderReversePrint links h root = some (values t).reverse) ∧
    (¬ (t.numNodes ≤ 128 ∧ h.outcomes.Succeed (t.numNodes + 3)) →
      binaryTreeLevelOrderReversePrint links h root = none) := by
  obtain ⟨a, hroot⟩ := Option.ne_none_iff_exists'.mp (mt ptr_eq_none.mp ht)
  obtain rfl := hs.root.trans hroot
  rw [binaryTreeLevelOrderReversePrint, Option.isNone_some, if_neg Bool.false_ne_true, succeed_stack_queue]
  by_cases h₁ : h.outcomes.first = true
  · obtain ⟨stack, hstack, hempty, hout⟩ := Stack.keeps_create links h₁
    rw [hstack]
    simp only [Option.bind_eq_bind, Option.bind_some, hout]
    by_cases h₂ : h.outcomes.rest.first = true ∧ h.outcomes.rest.rest.first = true
    · obtain ⟨queue, hcreate, hqempty, hqsize⟩ := Queue.queueCreate_of (E := Nat) h₂.1 h₂.2 128
      obtain ⟨queue', henq, hq, hqsize'⟩ := enqueue_root queue hqempty hqsize a
      have hempty' : Stack.Keeps
          { stack with mem := { stack.mem with outcomes := h.outcomes.rest.rest.rest } } [] :=
        ⟨hempty.ring, hempty.data⟩
      obtain ⟨hfit, hfull⟩ := pushLoop_spec hs.visits hq (rounds_suffice a hqsize') hempty'
      have hlen : ((some a).toList.length + 127) = 128 := rfl
      rw [length_stored, hlen] at hfit hfull
      simp only [hcreate, Option.bind_some, henq]
      refine ⟨fun hall => ?_, fun hn => ?_⟩
      · obtain ⟨stack', entries, hrun, hs', hdata⟩ := hfit ⟨hall.1, hall.2.2.2⟩
        rw [List.map_nil, List.append_nil, ← List.map_reverse] at hdata
        have hr : (levelOrder (stored t)).reverse.length < queue'.size + 1 := by
          rw [List.length_reverse, length_stored, hqsize']
          omega
        have hpop := popLoop_spec (fun n hn => hs.node n (List.mem_reverse.mp hn)) hs' hdata hr
        rw [hrun, Option.bind_some, hpop, List.map_reverse, data_stored]
      · rw [hfull (fun hall => hn ⟨hall.1, h₁, h₂, hall.2⟩)]
        rfl
    · obtain ⟨o, hcreate⟩ := Queue.queueCreate_fails (E := Nat) h₂ 128
      simp only [hcreate]
      exact ⟨fun hall => absurd hall.2.2.1 h₂, fun _ => rfl⟩
  · rw [Stack.stackCreate, if_neg h₁]
    exact ⟨fun hall => absurd hall.2.1 h₁, fun _ => rfl⟩

/-- **A tree is printed in reverse**, if it has no more nodes than the queue has slots. -/
theorem binaryTreeLevelOrderReversePrint_spec (hs : Spans h root t) (ho : h.outcomes = .allOk)
    (links : Lib.Store Stack.Node) : binaryTreeLevelOrderReversePrint links h root =
      if t.numNodes ≤ 128 then some (values t).reverse else none := by
  have hall : h.outcomes.Succeed (t.numNodes + 3) := by
    rw [ho]
    exact Outcomes.succeed_allOk _
  rcases eq_or_ne t .nil with rfl | ht
  · obtain rfl := hs.root
    rfl
  · obtain ⟨hfit, hfull⟩ := reversePrint_outcomes hs ht links
    by_cases hle : t.numNodes ≤ 128
    · rw [hfit ⟨hle, hall⟩, if_pos hle]
    · rw [hfull (fun h => hle h.1), if_neg hle]

/-! ### The depth -/

/-- **A level is replaced by the next one.** -/
theorem depthLevel_spec {ns : List (Nat × BinaryTreeNode)} (hl : ∀ n ∈ ns, h.cells n.1 = some n.2)
    (hq : Queue.Holds queue (ns.map Prod.fst ++ q) room) :
    ((ns.flatMap (fun n => children n.2)).length ≤ room → ∃ queue',
      depthLevel h ns.length queue = some queue' ∧
      Queue.Holds queue' (q ++ ns.flatMap (fun n => children n.2))
        (room - (ns.flatMap (fun n => children n.2)).length)) ∧
    (room < (ns.flatMap (fun n => children n.2)).length → depthLevel h ns.length queue = none) := by
  induction ns generalizing queue q room with
  | nil =>
    refine ⟨fun _ => ⟨queue, rfl, ?_⟩, fun hn => absurd hn (Nat.not_lt_zero _)⟩
    rwa [List.flatMap_nil, List.append_nil]
  | cons n ns ih =>
    obtain ⟨queue', hdeq, hq', -⟩ := hq.dequeue
    have hload : h.load (some n.1) = some n.2 := hl n List.mem_cons_self
    rw [List.flatMap_cons, List.length_append, List.length_cons, depthLevel, hdeq]
    simp only [Option.bind_eq_bind, Option.bind_some, hload]
    by_cases hroom : (children n.2).length ≤ room
    · obtain ⟨queue₁, hr₁, hq₁⟩ := enqueueChildren_ok hq' n.2.left n.2.right hroom
      have hq₁ : Queue.Holds queue₁ (ns.map Prod.fst ++ (q ++ children n.2))
          (room - (children n.2).length) := by
        rw [← List.append_assoc]
        exact hq₁
      obtain ⟨hfit, hfull⟩ := ih (fun m hm => hl m (List.mem_cons_of_mem _ hm)) hq₁
      rw [hr₁, Option.bind_some, ← List.append_assoc, ← Nat.sub_sub]
      exact ⟨fun hle => hfit (by omega), fun hlt => hfull (by omega)⟩
    · rw [enqueueChildren_full hq' _ _ (Nat.lt_of_not_le hroom)]
      exact ⟨fun hle => absurd hle (by omega), fun _ => rfl⟩

/-- **The loop over the levels** ends if the nodes fit into the queue. -/
theorem depthLoop_spec {l : List (Nat × BinaryTreeNode)} (hv : Visits h.cells children q l)
    (hq : Queue.Holds queue q room) (hr : q.length + room < rounds) (depth : Int) :
    (depthLoop h rounds queue depth).isSome ↔ l.length ≤ q.length + room := by
  induction rounds generalizing queue q room l depth with
  | zero => exact absurd hr (Nat.not_lt_zero _)
  | succ rounds ih =>
    rw [depthLoop, hq.isEmpty]
    cases hqe : q.isEmpty with
    | true =>
      obtain rfl := List.isEmpty_iff.mp hqe
      cases hv
      exact ⟨fun _ => Nat.zero_le _, fun _ => rfl⟩
    | false =>
      have hpos : 0 < q.length := List.length_pos_iff.mpr (by simpa using hqe)
      rw [← List.append_nil q] at hv hq
      obtain ⟨front, rest, rfl, rfl, hload, hrest⟩ := hv.split
      obtain ⟨hfit, hfull⟩ := depthLevel_spec hload hq
      have hsize : Queue.queueSize queue = front.length := by
        rw [hq.size_eq, List.append_nil, List.length_map]
      rw [if_neg Bool.false_ne_true, hsize, List.length_append, List.length_map, Nat.add_le_add_iff_left]
      rw [List.nil_append] at hrest hfit
      rw [List.length_map] at hr hpos
      by_cases hroom : (front.flatMap (fun n => children n.2)).length ≤ room
      · obtain ⟨queue', hrun, hq'⟩ := hfit hroom
        have hnext := ih hrest hq' (by omega) (depth + 1)
        rw [hrun, Option.bind_eq_bind, Option.bind_some, hnext, Nat.add_sub_cancel' hroom]
      · rw [hfull (Nat.lt_of_not_le hroom)]
        have hle := hrest.length_le
        exact ⟨fun h => absurd h Bool.false_ne_true, fun hle' => absurd (hle.trans hle') hroom⟩

/-- **The depth is found** if the tree has no more nodes than the queue has slots. -/
theorem binaryTreeDepthIterative_spec (hs : Spans h root t) (ho : h.outcomes = .allOk) :
    (binaryTreeDepthIterative h root).isSome ↔ t.numNodes ≤ 128 := by
  cases root with
  | none =>
    obtain rfl := hs.eq_nil
    exact ⟨fun _ => Nat.zero_le _, fun _ => rfl⟩
  | some a =>
    obtain ⟨queue, hcreate, hempty, hqsize⟩ := createQueue_ok ho
    obtain ⟨queue', henq, hq, hqsize'⟩ := enqueue_root queue hempty hqsize a
    have hloop := depthLoop_spec hs.visits hq (rounds_suffice a hqsize') 0
    rw [length_stored] at hloop
    rw [binaryTreeDepthIterative, Option.isNone_some, if_neg Bool.false_ne_true, hcreate]
    simp only [Option.bind_eq_bind, Option.bind_some, henq]
    exact hloop

end DataStructures.BinaryTree
