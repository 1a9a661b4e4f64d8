import DataStructures.Tree.Binary.Model
import DataStructures.Queue.Fifo
import DataStructures.Lib.BreadthFirst
import Mathlib.Data.List.Induction

/-!
# The loops over the queue

On a tree of any shape that has no more nodes than the queue has slots.  `Visits h.cells children
q l` says that the loops come to the nodes `l`, in this order.  `insertLoop_spec`: the new node
is attached to the first of them that has a child missing.  `deleteLoop_spec`: the cursors at the
end are the last match, the last node and the last node with a child.
-/

namespace DataStructures.BinaryTree

open Lib Queue BreadthFirst

/-- The children of a node, the left one first. -/
def children (n : BinaryTreeNode) : List Nat := n.left.toList ++ n.right.toList

/-- The node with a new child where one is missing. -/
def attach (n : BinaryTreeNode) (new : Ptr) : BinaryTreeNode :=
  if n.left.isNone then { n with left := new } else { n with right := new }

/-- The node without its child at `r`. -/
def detach (n : BinaryTreeNode) (r : Nat) : BinaryTreeNode :=
  if n.left = some r then { n with left := none } else { n with right := none }

variable {h : Heap} {a : Nat} {n : BinaryTreeNode} {q : List Nat}
  {l pre post : List (Nat × BinaryTreeNode)} {queue : QueueT Nat} {room rounds : Nat} {data : Int}

theorem attach_of_none (hl : n.left = none) (new : Ptr) : attach n new = { n with left := new } :=
  if_pos (Option.isNone_iff_eq_none.mpr hl)

theorem attach_of_ne (hl : n.left ≠ none) (new : Ptr) : attach n new = { n with right := new } :=
  if_neg (fun hn => hl (Option.isNone_iff_eq_none.mp hn))

/-! ### Steps -/

/-- A child that is there is put into the queue, if there is room. -/
theorem enqueueChild_spec (hq : Holds queue q room) (p : Ptr) (hp : p.toList.length ≤ room) :
    ∃ queue', enqueueChild queue p = some queue' ∧
      Holds queue' (q ++ p.toList) (room - p.toList.length) ∧ queue'.size = queue.size := by
  cases p with
  | none => exact ⟨queue, rfl, by rwa [Option.toList_none, List.append_nil], rfl⟩
  | some a =>
    cases room with
    | zero => exact absurd hp (Nat.not_succ_le_zero 0)
    | succ room =>
      obtain ⟨queue', hr, hq', hsize⟩ := hq.enqueue a
      refine ⟨queue', ?_, hq', hsize⟩
      rw [enqueueChild, Option.isSome_some, if_pos rfl, assertEnqueue, hr]
      exact if_pos rfl

theorem enqueueChild_some (queue : QueueT Nat) {p : Ptr} (hp : p ≠ none) :
    enqueueChild queue p = assertEnqueue queue p :=
  if_pos (Option.isSome_iff_ne_none.mpr hp)

/-- The first element in the queue. -/
theorem enqueue_root (queue : QueueT Nat) (hq : Holds queue [] 128) (hsize : queue.size = 128)
    (a : Nat) : ∃ queue', assertEnqueue queue (some a) = some queue' ∧ Holds queue' [a] 127 ∧
      queue'.size = 128 := by
  obtain ⟨queue', henq, hq', hsize'⟩ := hq.enqueue a
  refine ⟨queue', ?_, hq', hsize'.trans hsize⟩
  rw [assertEnqueue, henq]
  exact if_pos rfl

/-- There is room for the children of the next node. -/
theorem children_room (hv : Visits h.cells children (q ++ children n) l)
    (hroom : ((a, n) :: l).length ≤ (a :: q).length + room) :
    n.left.toList.length + n.right.toList.length ≤ room ∧
      l.length ≤ (q ++ children n).length + (room - n.left.toList.length - n.right.toList.length) := by
  have hle := hv.length_le
  rw [children, List.length_append, List.length_append] at hle ⊢
  rw [List.length_cons, List.length_cons] at hroom
  omega

/-- Both children are put into the queue. -/
theorem enqueueBoth_spec (hq : Holds queue q room) (p r : Ptr)
    (hroom : p.toList.length + r.toList.length ≤ room) : ∃ queue₁ queue₂,
      enqueueChild queue p = some queue₁ ∧ enqueueChild queue₁ r = some queue₂ ∧
      Holds queue₂ (q ++ (p.toList ++ r.toList)) (room - p.toList.length - r.toList.length) := by
  obtain ⟨queue₁, hr₁, hq₁, -⟩ := enqueueChild_spec hq p (by omega)
  obtain ⟨queue₂, hr₂, hq₂, -⟩ := enqueueChild_spec hq₁ r (by omega)
  rw [List.append_assoc] at hq₂
  exact ⟨queue₁, queue₂, hr₁, hr₂, hq₂⟩

theorem setLeft_spec (ha : h.cells a = some n) (p : Ptr) : ∃ h', setLeft h (some a) p = some h' ∧
    h'.cells = Function.update h.cells a (some { n with left := p }) ∧ h'.next = h.next ∧
    h'.outcomes = h.outcomes :=
  Memory.modify_spec ha (fun n => { n with left := p })

theorem setRight_spec (ha : h.cells a = some n) (p : Ptr) : ∃ h', setRight h (some a) p = some h' ∧
    h'.cells = Function.update h.cells a (some { n with right := p }) ∧ h'.next = h.next ∧
    h'.outcomes = h.outcomes :=
  Memory.modify_spec ha (fun n => { n with right := p })

theorem setData_spec (ha : h.cells a = some n) (x : Int) : ∃ h', setData h (some a) x = some h' ∧
    h'.cells = Function.update h.cells a (some { n with data := x }) ∧ h'.next = h.next ∧
    h'.outcomes = h.outcomes :=
  Memory.modify_spec ha (fun n => { n with data := x })

theorem binaryTreeNodeCreate_ok (ho : h.outcomes = .allOk) (x : Int) : ∃ new h',
    binaryTreeNodeCreate h x = (some new, h') ∧ h.cells new = none ∧
    h'.cells = Function.update h.cells new (some ⟨x, none, none⟩) ∧ h'.outcomes = .allOk := by
  obtain ⟨h', hm, hself, hother, -, hout⟩ := Memory.malloc_ok (m := h) (by rw [ho]; rfl) ⟨x, none, none⟩
  refine ⟨h.next, h', hm, h.fresh _ (Nat.le_refl _), Function.eq_update_iff.mpr ⟨hself, hother⟩, ?_⟩
  rw [hout, ho]
  rfl

/-- A node that is there stays as it is. -/
theorem create_beside (ha : h.cells a = some n) (ho : h.outcomes = .allOk) (x : Int) : ∃ new h',
    binaryTreeNodeCreate h x = (some new, h') ∧ h.cells new = none ∧ h'.cells a = some n ∧
    h'.cells = Function.update h.cells new (some ⟨x, none, none⟩) ∧ h'.outcomes = .allOk := by
  obtain ⟨new, h', hcr, hfresh, hc, ho'⟩ := binaryTreeNodeCreate_ok ho x
  have hne : a ≠ new := by
    rintro rfl
    rw [hfresh] at ha
    cases ha
  refine ⟨new, h', hcr, hfresh, ?_, hc, ho'⟩
  rw [hc, Function.update_of_ne hne, ha]

theorem createQueue_ok (ho : h.outcomes = .allOk) :
    ∃ queue, createQueue h = some (queue, h) ∧ Holds queue [] 128 ∧ queue.size = 128 := by
  obtain ⟨queue, hr, hq, hsize⟩ := queueCreate_allOk (E := Nat) 128
  refine ⟨queue, ?_, hq, hsize⟩
  rw [createQueue, ho, hr, ← ho]
  rfl

/-- The queue takes two allocations. -/
theorem succeed_two {o : Outcomes} : o.Succeed 2 ↔ o.first = true ∧ o.rest.first = true := by
  rw [Outcomes.succeed_succ, Outcomes.succeed_succ, and_iff_left (Outcomes.succeed_zero _)]

/-- The queue is there if both succeed; the nodes are the same. -/
theorem createQueue_of (ho : h.outcomes.Succeed 2) : ∃ queue,
    createQueue h = some (queue, { h with outcomes := h.outcomes.later 2 }) ∧ Holds queue [] 128 ∧
      queue.size = 128 := by
  obtain ⟨h₁, h₂⟩ := succeed_two.mp ho
  obtain ⟨queue, hr, hq, hsize⟩ := queueCreate_of (E := Nat) h₁ h₂ 128
  refine ⟨queue, ?_, hq, hsize⟩
  rw [createQueue, hr]
  rfl

theorem createQueue_refused (ho : ¬ h.outcomes.Succeed 2) : createQueue h = none := by
  obtain ⟨o, hr⟩ := queueCreate_fails (E := Nat) (mt succeed_two.mpr ho) 128
  rw [createQueue, hr]
  rfl

/-! ### The insertion -/

/-- What the insertion has made of the memory. -/
structure Attached (h h' : Heap) (a new : Nat) (n : BinaryTreeNode) (data : Int) : Prop where
  fresh : h.cells new = none
  cells : h'.cells = Function.update (Function.update h.cells new (some ⟨data, none, none⟩)) a
    (some (attach n (some new)))
  outcomes : h'.outcomes = .allOk

/-- The new node is made and attached where the loop stands. -/
theorem attach_left (ha : h.cells a = some n) (hl : n.left = none) (ho : h.outcomes = .allOk)
    (data : Int) :
    ∃ new h₁ h₂, binaryTreeNodeCreate h data = (some new, h₁) ∧
      setLeft h₁ (some a) (some new) = some h₂ ∧ Attached h h₂ a new n data := by
  obtain ⟨new, h₁, hcr, hfresh, ha₁, hc₁, ho₁⟩ := create_beside ha ho data
  obtain ⟨h₂, hset, hc₂, -, ho₂⟩ := setLeft_spec ha₁ (some new)
  refine ⟨new, h₁, h₂, hcr, hset, hfresh, ?_, ho₂.trans ho₁⟩
  rw [hc₂, hc₁, attach_of_none hl]

theorem attach_right (ha : h.cells a = some n) (hl : n.left ≠ none) (ho : h.outcomes = .allOk)
    (data : Int) :
    ∃ new h₁ h₂, binaryTreeNodeCreate h data = (some new, h₁) ∧
      setRight h₁ (some a) (some new) = some h₂ ∧ Attached h h₂ a new n data := by
  obtain ⟨new, h₁, hcr, hfresh, ha₁, hc₁, ho₁⟩ := create_beside ha ho data
  obtain ⟨h₂, hset, hc₂, -, ho₂⟩ := setRight_spec ha₁ (some new)
  refine ⟨new, h₁, h₂, hcr, hset, hfresh, ?_, ho₂.trans ho₁⟩
  rw [hc₂, hc₁, attach_of_ne hl]

theorem toList_length_of_ne {p : Ptr} (hp : p ≠ none) : p.toList.length = 1 := by
  cases p with
  | none => exact absurd rfl hp
  | some a => rfl

/-- **The new node goes to the first place that is open in level order.** -/
theorem insertLoop_spec (hv : Visits h.cells children q (pre ++ (a, n) :: post))
    (hfull : ∀ m ∈ pre, m.2.left ≠ none ∧ m.2.right ≠ none)
    (hopen : n.left = none ∨ n.right = none) (hq : Holds queue q room)
    (hroom : 2 * pre.length + n.left.toList.length ≤ room) (hr : pre.length < rounds)
    (ho : h.outcomes = .allOk) (data : Int) :
    ∃ new h', insertLoop data rounds h queue = some (some new, h') ∧ Attached h h' a new n data := by
  induction pre generalizing q queue room rounds with
  | nil =>
    obtain ⟨rounds, rfl⟩ := Nat.exists_eq_add_of_lt hr
    cases hv with
    | @step _ _ q _ hn hv =>
      obtain ⟨queue', hdeq, hq', -⟩ := hq.dequeue
      have hload : h.load (some a) = some n := hn
      rw [insertLoop, hq.isEmpty, hdeq]
      by_cases hl : n.left = none
      · obtain ⟨new, h₁, h₂, hcr, hset, hat⟩ := attach_left hn hl ho data
        refine ⟨new, h₂, ?_, hat⟩
        simp [hload, hl, hcr, hset]
      · have hright : n.right = none := hopen.resolve_left hl
        rw [List.length_nil, Nat.mul_zero, Nat.zero_add] at hroom
        obtain ⟨queue₁, hr₁, -, -⟩ := enqueueChild_spec hq' n.left hroom
        rw [enqueueChild_some _ hl] at hr₁
        obtain ⟨new, h₁, h₂, hcr, hset, hat⟩ := attach_right hn hl ho data
        refine ⟨new, h₂, ?_, hat⟩
        simp [hload, hl, hright, hr₁, hcr, hset]
  | cons m pre ih =>
    cases rounds with
    | zero => exact absurd hr (Nat.not_lt_zero _)
    | succ rounds =>
      cases hv with
      | @step b m q _ hn hv =>
        obtain ⟨hl, hright⟩ := hfull (b, m) List.mem_cons_self
        obtain ⟨queue', hdeq, hq', -⟩ := hq.dequeue
        have hlen₁ : m.left.toList.length = 1 := toList_length_of_ne hl
        have hlen₂ : m.right.toList.length = 1 := toList_length_of_ne hright
        rw [List.length_cons] at hroom
        obtain ⟨queue₁, queue₂, hr₁, hr₂, hq₂⟩ := enqueueBoth_spec hq' m.left m.right (by omega)
        rw [enqueueChild_some _ hl] at hr₁
        rw [enqueueChild_some _ hright] at hr₂
        obtain ⟨new, h', hrun, hat⟩ := ih hv (fun m hm => hfull m (List.mem_cons_of_mem _ hm)) hq₂
          (by omega) (Nat.lt_of_succ_lt_succ hr)
        refine ⟨new, h', ?_, hat⟩
        have hload : h.load (some b) = some m := hn
        rw [insertLoop, hq.isEmpty, hdeq]
        simp [hload, hl, hright, hr₁, hr₂, hrun]

/-! ### The deletion -/

/-- The index of the last element with the property. -/
def lastWhere {α : Type} (p : α → Bool) : List α → Option Nat
  | [] => none
  | y :: l => match lastWhere p l with
    | some i => some (i + 1)
    | none => if p y then some 0 else none

section LastWhere

variable {α β : Type} {p : α → Bool} {l : List α}

theorem lastWhere_concat (y : α) :
    lastWhere p (l ++ [y]) = if p y then some l.length else lastWhere p l := by
  induction l with
  | nil => rfl
  | cons z l ih =>
    rw [List.cons_append, lastWhere, ih, lastWhere]
    cases p y with
    | true => rfl
    | false => rfl

theorem lastWhere_map (f : β → α) (l : List β) : lastWhere p (l.map f) = lastWhere (p ∘ f) l := by
  induction l with
  | nil => rfl
  | cons z l ih =>
    rw [List.map_cons, lastWhere, lastWhere, ih]
    rfl

theorem lastWhere_lt {i : Nat} (h : lastWhere p l = some i) : i < l.length := by
  induction l generalizing i with
  | nil => cases h
  | cons z l ih =>
    rw [lastWhere] at h
    cases hl : lastWhere p l with
    | some j =>
      rw [hl, Option.some.injEq] at h
      rw [← h]
      exact Nat.succ_lt_succ (ih hl)
    | none =>
      rw [hl] at h
      obtain ⟨-, h0⟩ := Option.ite_none_right_eq_some.mp h
      rw [← Option.some.inj h0]
      exact Nat.succ_pos _

theorem lastWhere_eq_none (h : lastWhere p l = none) : ∀ y ∈ l, p y = false := by
  induction l using List.reverseRecOn with
  | nil => exact nofun
  | append_singleton l y ih =>
    rw [lastWhere_concat] at h
    by_cases hy : p y = true
    · rw [if_pos hy] at h
      cases h
    · rw [if_neg hy] at h
      intro z hz
      rcases List.mem_append.mp hz with hz | hz
      · exact ih h z hz
      · rw [List.mem_singleton.mp hz]
        exact Bool.eq_false_iff.mpr hy

/-- The last element with the property, and those behind it. -/
theorem lastWhere_eq_some {i : Nat} (h : lastWhere p l = some i) : ∃ pre y post,
    l = pre ++ y :: post ∧ pre.length = i ∧ p y = true ∧ ∀ z ∈ post, p z = false := by
  induction l using List.reverseRecOn with
  | nil => cases h
  | append_singleton l y ih =>
    rw [lastWhere_concat] at h
    by_cases hy : p y = true
    · rw [if_pos hy, Option.some.injEq] at h
      exact ⟨l, y, [], rfl, h, hy, nofun⟩
    · rw [if_neg hy] at h
      obtain ⟨pre, z, post, rfl, hlen, hz, hpost⟩ := ih h
      refine ⟨pre, z, post ++ [y], by rw [List.append_assoc, List.cons_append], hlen, hz, ?_⟩
      intro w hw
      rcases List.mem_append.mp hw with hw | hw
      · exact hpost w hw
      · rw [List.mem_singleton.mp hw]
        exact Bool.eq_false_iff.mpr hy

/-- Where the property is that of an index, which is downward closed. -/
theorem lastWhere_of_index (k : Nat) (hp : ∀ j y, l[j]? = some y → (p y = true ↔ j < k))
    (hk : k ≤ l.length) : lastWhere p l = if k = 0 then none else some (k - 1) := by
  induction l using List.reverseRecOn generalizing k with
  | nil => rw [if_pos (Nat.le_zero.mp hk)]; rfl
  | append_singleton l y ih =>
    rw [lastWhere_concat]
    have hy := hp l.length y List.getElem?_concat_length
    rw [List.length_append, List.length_singleton] at hk
    by_cases hlast : l.length < k
    · rw [if_pos (hy.mpr hlast), if_neg (by omega)]
      congr 1
      omega
    · rw [if_neg (fun h => hlast (hy.mp h)), ih k (fun j z hz => hp j z ?_) (by omega)]
      rw [List.getElem?_append_left (List.getElem?_eq_some_iff.mp hz).1, hz]

end LastWhere

/-- What a round does to the cursors. -/
def visit (data : Int) (c : Cursors) (n : Nat × BinaryTreeNode) : Cursors where
  toDelete := if n.2.data = data then some n.1 else c.toDelete
  toReplace := some n.1
  parentToReplace := if n.2.left.isSome || n.2.right.isSome then some n.1 else c.parentToReplace

theorem deleteLoop_spec (hv : Visits h.cells children q l) (hq : Holds queue q room)
    (hroom : l.length ≤ q.length + room) (hr : l.length < rounds) (c : Cursors) :
    deleteLoop data h rounds queue c = some (l.foldl (visit data) c) := by
  induction hv generalizing queue room rounds c with
  | done =>
    obtain ⟨rounds, rfl⟩ := Nat.exists_eq_add_of_lt hr
    rw [deleteLoop, hq.isEmpty]
    rfl
  | @step a n q l hn hv ih =>
    cases rounds with
    | zero => exact absurd hr (Nat.not_lt_zero _)
    | succ rounds =>
      obtain ⟨queue', hdeq, hq', -⟩ := hq.dequeue
      obtain ⟨hroom₁, hroom₂⟩ := children_room hv hroom
      obtain ⟨queue₁, queue₂, hr₁, hr₂, hq₂⟩ := enqueueBoth_spec hq' n.left n.right hroom₁
      rw [deleteLoop, hq.isEmpty, hdeq]
      have hload : h.load (some a) = some n := hn
      simp only [List.isEmpty_cons, Bool.false_eq_true, if_false, Option.bind_eq_bind,
        Option.bind_some, hload, hr₁, hr₂]
      exact ih hq₂ hroom₂ (Nat.lt_of_succ_lt_succ hr) _

/-- **The cursors at the end**: the last match, the last node and the last node with a child. -/
theorem foldl_visit (l : List (Nat × BinaryTreeNode)) : l.foldl (visit data) ⟨none, none, none⟩ =
    ⟨(lastWhere (fun n => decide (n.2.data = data)) l).bind ((l.map Prod.fst)[·]?),
      (l.map Prod.fst).getLast?,
      (lastWhere (fun n => n.2.left.isSome || n.2.right.isSome) l).bind ((l.map Prod.fst)[·]?)⟩ := by
  -- a node behind the others changes none of their indices
  have hkeep : ∀ (p : Nat × BinaryTreeNode → Bool) (l : List (Nat × BinaryTreeNode)) n,
      (lastWhere p (l ++ [n])).bind (((l ++ [n]).map Prod.fst)[·]?) =
        if p n then some n.1 else (lastWhere p l).bind ((l.map Prod.fst)[·]?) := by
    intro p l n
    rw [lastWhere_concat, List.map_append]
    by_cases hn : p n = true
    · rw [if_pos hn, if_pos hn, Option.bind_some, ← List.length_map (f := Prod.fst)]
      exact List.getElem?_concat_length
    · rw [if_neg hn, if_neg hn]
      cases hl : lastWhere p l with
      | none => rfl
      | some i =>
        have hi := lastWhere_lt hl
        rw [← List.length_map (f := Prod.fst)] at hi
        exact List.getElem?_append_left hi
  induction l using List.reverseRecOn with
  | nil => rfl
  | append_singleton l n ih =>
    rw [List.foldl_append, ih, List.foldl_cons, List.foldl_nil, visit, hkeep, hkeep, List.map_append,
      List.map_singleton, List.getLast?_concat]
    simp only [decide_eq_true_eq]

theorem clearChild_spec (ha : h.cells a = some n) (r : Nat) : ∃ h',
    clearChild h (some a) (some r) = some h' ∧
    h'.cells = Function.update h.cells a (some (detach n r)) ∧ h'.outcomes = h.outcomes := by
  rw [clearChild, Memory.load, ha, Option.bind_eq_bind, Option.bind_some]
  by_cases hl : n.left = some r
  · obtain ⟨h', hset, hcells, -, ho⟩ := setLeft_spec ha none
    rw [detach, if_pos hl, if_pos hl]
    exact ⟨h', hset, hcells, ho⟩
  · obtain ⟨h', hset, hcells, -, ho⟩ := setRight_spec ha none
    rw [detach, if_neg hl, if_neg hl]
    exact ⟨h', hset, hcells, ho⟩

/-- A leaf is freed. -/
theorem binaryTreeNodeDestroy_leaf (ha : h.cells a = some ⟨data, none, none⟩) : ∃ h',
    binaryTreeNodeDestroy (levels h) h (some a) = some h' ∧
    h'.cells = Function.update h.cells a none ∧ h'.outcomes = h.outcomes := by
  obtain ⟨h', hfree, hx, hm⟩ := Memory.free_spec ha
  refine ⟨h', ?_, hm.cells_eq hx, hm.outcomes⟩
  have hlt := Memory.lt_next ha
  obtain ⟨depth, hdepth⟩ : ∃ depth, levels h = depth + 1 + 1 := ⟨h.next - 1, by rw [levels]; omega⟩
  rw [hdepth, binaryTreeNodeDestroy, Memory.load, ha]
  exact hfree

end DataStructures.BinaryTree
