import DataStructures.Tree.Binary.Recursion
import DataStructures.Tree.Binary.Traversal
import Mathlib.Algebra.GroupWithZero.Nat

/-!
# Traversals with an explicit stack

`Piles stack ts`: on the stack are the roots of the trees `ts`, none of them empty.  A round of a
loop takes the first tree off and puts its subtrees on (`present`); what remains to be printed are
the trees on the stack, and what remains to be pushed are their nodes but the roots (`pending`).
-/

namespace DataStructures.BinaryTree

open Lib LevelOrder Traversals

variable {h : Heap} {t l r : Tree} {ts : List Tree} {stack : Stack.StackT} {o : Outcomes}
  {n : Nat × Int} {rounds : Nat} {root : Ptr}

/-- The nodes below the roots. -/
def pending (ts : List Tree) : Nat := (ts.map (fun t => t.numNodes - 1)).sum

/-- The nodes. -/
def total (ts : List Tree) : Nat := (ts.map BinaryTree.numNodes).sum

/-- **On the stack are the roots of the trees.** -/
structure Piles (stack : Stack.StackT) (ts : List Tree) : Prop where
  keeps : ∃ entries, Stack.Keeps stack entries ∧ entries.map Prod.snd = ts.map ptr
  ne_nil : ∀ t ∈ ts, t ≠ .nil

/-- The nodes of the trees are stored. -/
def Stored (h : Heap) (ts : List Tree) : Prop := ∀ t ∈ ts, ∀ n ∈ levelOrder (stored t), h.cells n.1 = some n.2

/-! ### Trees that are present -/

theorem pending_append (ts us : List Tree) : pending (ts ++ us) = pending ts + pending us := by
  rw [pending, List.map_append, List.sum_append]
  rfl

theorem total_append (ts us : List Tree) : total (ts ++ us) = total ts + total us := by
  rw [total, List.map_append, List.sum_append]
  rfl

theorem pending_node (n : Nat × Int) (l r : Tree) (ts : List Tree) :
    pending (.node n l r :: ts) = l.numNodes + r.numNodes + pending ts := by
  rw [pending, List.map_cons, List.sum_cons, BinaryTree.numNodes, Nat.add_sub_cancel]
  rfl

theorem total_node (n : Nat × Int) (l r : Tree) (ts : List Tree) :
    total (.node n l r :: ts) = l.numNodes + r.numNodes + 1 + total ts := rfl

theorem total_present (t : Tree) : total (present t) = t.numNodes := by
  cases t with
  | nil => rfl
  | node n l r => exact Nat.add_zero _

/-- A tree that is pushed has its other nodes pending. -/
theorem numNodes_present (t : Tree) : t.numNodes = (present t).length + pending (present t) := by
  cases t with
  | nil => rfl
  | node n l r =>
    rw [present, pending_node, BinaryTree.numNodes, List.length_singleton]
    exact Nat.add_comm _ _

theorem Stored.node (hs : Stored h (.node n l r :: ts)) :
    h.cells n.1 = some ⟨n.2, ptr l, ptr r⟩ ∧ Stored h (present l) ∧ Stored h (present r) ∧ Stored h ts := by
  obtain ⟨hnode, hts⟩ := List.forall_mem_cons.mp hs
  obtain ⟨hroot, hl, hr⟩ := forall_mem_levelOrder_node.mp hnode
  have hpresent : ∀ t : Tree, (∀ m ∈ levelOrder (stored t), h.cells m.1 = some m.2) → Stored h (present t) := by
    intro t ht
    cases t with
    | nil => exact fun _ hu => absurd hu List.not_mem_nil
    | node n l r =>
      intro u hu
      rw [List.mem_singleton.mp hu]
      exact ht
  exact ⟨hroot, hpresent l hl, hpresent r hr, hts⟩

theorem Stored.append {us : List Tree} (hts : Stored h ts) (hus : Stored h us) : Stored h (ts ++ us) := by
  intro t ht
  rcases List.mem_append.mp ht with ht | ht
  · exact hts t ht
  · exact hus t ht

/-! ### The stack -/

theorem Piles.isEmpty_iff (hp : Piles stack ts) : Stack.stackIsEmpty stack = true ↔ ts = [] := by
  obtain ⟨entries, hk, hmap⟩ := hp.keeps
  rw [hk.isEmpty_iff, ← List.map_eq_nil_iff (f := Prod.snd), hmap, List.map_eq_nil_iff]

/-- **What is popped** is the root of the first tree. -/
theorem Piles.pop (hp : Piles stack (t :: ts)) :
    ∃ stack', Stack.stackPop stack = some (ptr t, stack') ∧ Piles stack' ts := by
  obtain ⟨⟨entries, hk, hmap⟩, hne⟩ := hp
  cases entries with
  | nil => cases hmap
  | cons e entries =>
    rw [List.map_cons, List.map_cons, List.cons.injEq] at hmap
    obtain ⟨stack', hpop, hk', -⟩ := hk.pop
    rw [hmap.1] at hpop
    exact ⟨stack', hpop, ⟨entries, hk', hmap.2⟩, fun t ht => hne t (List.mem_cons_of_mem _ ht)⟩

/-- A push, with what the allocations answer. -/
theorem pushNext_ok {entries : List (Nat × Ptr)} (hk : Stack.Keeps stack entries) (ho : o.first = true)
    (p : Ptr) : ∃ stack' a, pushNext o stack p = some (stack', o.rest) ∧
      Stack.Keeps stack' ((a, p) :: entries) := by
  have hk' : Stack.Keeps { stack with mem := { stack.mem with outcomes := o } } entries := ⟨hk.ring, hk.data⟩
  obtain ⟨stack', a, hpush, hs, hout⟩ := hk'.push ho p
  refine ⟨stack', a, ?_, hs⟩
  rw [pushNext, assertPush, hpush, if_pos rfl, Option.bind_eq_bind, Option.bind_some, hout]
  rfl

theorem pushNext_refused (ho : ¬ o.first = true) (p : Ptr) : pushNext o stack p = none := by
  have hpush := Stack.push_refused (s := { stack with mem := { stack.mem with outcomes := o } })
    (Bool.not_eq_true _ ▸ ho) p
  rw [pushNext, assertPush, if_neg]
  · rfl
  · rw [hpush]
    decide

/-- **A child that is there is pushed**, or an assertion fails. -/
theorem Piles.pushChild (hp : Piles stack ts) (t : Tree) :
    (o.Succeed (present t).length → ∃ stack',
      pushChild o stack (ptr t) = some (stack', o.later (present t).length) ∧ Piles stack' (present t ++ ts)) ∧
    (¬ o.Succeed (present t).length → BinaryTree.pushChild o stack (ptr t) = none) := by
  cases t with
  | nil => exact ⟨fun _ => ⟨stack, rfl, hp⟩, fun hn => absurd (Outcomes.succeed_zero o) hn⟩
  | node n l r =>
    have hone : o.Succeed (present (.node n l r)).length ↔ o.first = true := by
      rw [present, List.length_singleton, Outcomes.succeed_succ]
      exact and_iff_left (Outcomes.succeed_zero _)
    rw [hone]
    obtain ⟨⟨entries, hk, hmap⟩, hne⟩ := hp
    refine ⟨fun ho => ?_, pushNext_refused (p := ptr (.node n l r))⟩
    obtain ⟨stack', a, hpush, hk'⟩ := pushNext_ok hk ho (ptr (.node n l r))
    refine ⟨stack', hpush, ⟨_, hk', ?_⟩, List.forall_mem_cons.mpr ⟨nofun, hne⟩⟩
    rw [List.map_cons, hmap]
    rfl

/-- **Both children are pushed**, or an assertion fails. -/
theorem Piles.pushChildren (hp : Piles stack ts) (t u : Tree) :
    (o.Succeed ((present t).length + (present u).length) → ∃ stack',
      pushChildren o stack (ptr t) (ptr u) =
        some (stack', o.later ((present t).length + (present u).length)) ∧
      Piles stack' (present u ++ (present t ++ ts))) ∧
    (¬ o.Succeed ((present t).length + (present u).length) →
      BinaryTree.pushChildren o stack (ptr t) (ptr u) = none) := by
  obtain ⟨hok, hfail⟩ := hp.pushChild (o := o) t
  rw [Outcomes.succeed_add, BinaryTree.pushChildren]
  by_cases ht : o.Succeed (present t).length
  · obtain ⟨stack₁, hpush, hp₁⟩ := hok ht
    obtain ⟨hok₁, hfail₁⟩ := hp₁.pushChild (o := o.later (present t).length) u
    rw [hpush]
    simp only [Option.bind_eq_bind, Option.bind_some]
    rw [Outcomes.later_later] at hok₁
    exact ⟨fun ho => hok₁ ho.2, fun hn => hfail₁ (fun hu => hn ⟨ht, hu⟩)⟩
  · rw [hfail ht]
    exact ⟨fun ho => absurd ho.1 ht, fun _ => rfl⟩

/-- The trees are on the stack, and their roots are popped one after the other. -/
theorem Piles.cons_cases (hp : Piles stack ts) (hs : Stored h ts) :
    (ts = [] ∧ Stack.stackIsEmpty stack = true) ∨ ∃ n l r ts' stack', ts = .node n l r :: ts' ∧
      Stack.stackIsEmpty stack = false ∧ Stack.stackPop stack = some (some n.1, stack') ∧
      h.load (some n.1) = some ⟨n.2, ptr l, ptr r⟩ ∧ Piles stack' ts' ∧ Stored h (present l) ∧
      Stored h (present r) ∧ Stored h ts' := by
  cases ts with
  | nil => exact Or.inl ⟨rfl, hp.isEmpty_iff.mpr rfl⟩
  | cons t ts =>
    cases t with
    | nil => exact absurd rfl (hp.ne_nil .nil List.mem_cons_self)
    | node n l r =>
      obtain ⟨hroot, hl, hr, hts⟩ := hs.node
      obtain ⟨stack', hpop, hp'⟩ := hp.pop
      have hempty : Stack.stackIsEmpty stack = false := by
        rw [← Bool.not_eq_true, hp.isEmpty_iff]
        exact List.cons_ne_nil _ _
      exact Or.inr ⟨n, l, r, ts, stack', rfl, hempty, hpop, hroot, hp', hl, hr, hts⟩

/-! ### Pre-order -/

/-- **The loop prints the trees on the stack in pre-order.** -/
theorem preOrderLoop_spec (hp : Piles stack ts) (hs : Stored h ts) (hr : total ts < rounds) :
    (o.Succeed (pending ts) →
      preOrderLoop h rounds o stack = some (ts.flatMap (fun t => preOrder (t.map Prod.snd)))) ∧
    (¬ o.Succeed (pending ts) → preOrderLoop h rounds o stack = none) := by
  induction rounds generalizing ts stack o with
  | zero => exact absurd hr (Nat.not_lt_zero _)
  | succ rounds ih =>
    rcases hp.cons_cases hs with ⟨rfl, hempty⟩ | ⟨n, l, r, ts, stack', rfl, hempty, hpop, hload, hp', hl, hright, hts⟩
    · rw [preOrderLoop, if_pos hempty]
      exact ⟨fun _ => rfl, fun hn => absurd (Outcomes.succeed_zero o) hn⟩
    · rw [preOrderLoop, hempty, if_neg Bool.false_ne_true, hpop]
      simp only [Option.bind_eq_bind, Option.bind_some, hload]
      obtain ⟨hok, hfail⟩ := hp'.pushChildren (o := o) r l
      have hcount : pending (.node n l r :: ts) = (present r).length + (present l).length +
          pending (present l ++ (present r ++ ts)) := by
        rw [pending_node, numNodes_present l, numNodes_present r, pending_append, pending_append]
        omega
      rw [hcount, Outcomes.succeed_add]
      by_cases ho : o.Succeed ((present r).length + (present l).length)
      · obtain ⟨stack₁, hpush, hp₁⟩ := hok ho
        have htotal : total (present l ++ (present r ++ ts)) < rounds := by
          rw [total_append, total_append, total_present, total_present]
          rw [total_node] at hr
          omega
        obtain ⟨hrun, hfailrun⟩ := ih hp₁ (hl.append (hright.append hts)) htotal
        rw [hpush, Option.bind_some]
        refine ⟨fun hall => ?_, fun hn => ?_⟩
        · rw [hrun hall.2, Option.bind_some, List.flatMap_append, List.flatMap_append, flatMap_present _ rfl,
            flatMap_present _ rfl, List.flatMap_cons, BinaryTree.map, preOrder, List.cons_append,
            List.append_assoc]
          rfl
        · rw [hfailrun (fun hrest => hn ⟨ho, hrest⟩)]
          rfl
      · rw [hfail ho]
        exact ⟨fun hall => absurd hall.1 ho, fun _ => rfl⟩

/-- The root is the first to be pushed. -/
theorem pushRoot {stack : Stack.StackT} (hk : Stack.Keeps stack []) (ho : o.first = true) (ht : t ≠ .nil) :
    ∃ stack', pushNext o stack (ptr t) = some (stack', o.rest) ∧ Piles stack' [t] := by
  obtain ⟨stack', a, hpush, hk'⟩ := pushNext_ok hk ho (ptr t)
  exact ⟨stack', hpush, ⟨_, hk', rfl⟩, List.forall_mem_singleton.mpr ht⟩

theorem Spans.storedOne (hs : Spans h root t) : Stored h [t] := List.forall_mem_singleton.mpr hs.node

/-- All nodes of a tree but its root are pending. -/
theorem numNodes_eq (ht : t ≠ .nil) : t.numNodes = 1 + pending [t] := by
  have hcount := numNodes_present t
  cases t with
  | nil => exact absurd rfl ht
  | node n l r => exact hcount

theorem total_singleton (t : Tree) : total [t] = t.numNodes := Nat.add_zero _

/-- **The iterative pre-order print**, for what the allocations answer. -/
theorem binaryTreePreOrderIterativePrint_spec (hs : Spans h root t) (links : Lib.Store Stack.Node)
    (ht : t ≠ .nil) :
    (h.outcomes.Succeed (t.numNodes + 1) →
      binaryTreePreOrderIterativePrint links h root = some (preOrder (t.map Prod.snd))) ∧
    (¬ h.outcomes.Succeed (t.numNodes + 1) → binaryTreePreOrderIterativePrint links h root = none) := by
  have hcount : t.numNodes + 1 = pending [t] + 1 + 1 := by
    rw [numNodes_eq ht]
    omega
  rw [binaryTreePreOrderIterativePrint, hs.root, isNone_ptr ht, if_neg Bool.false_ne_true, hcount,
    Outcomes.succeed_succ, Outcomes.succeed_succ]
  by_cases h₁ : h.outcomes.first = true
  · obtain ⟨stack, hcreate, hk, hout⟩ := Stack.keeps_create links h₁
    rw [hcreate, Option.bind_eq_bind, Option.bind_some, hout]
    by_cases h₂ : h.outcomes.rest.first = true
    · obtain ⟨stack', hpush, hp⟩ := pushRoot hk h₂ ht
      rw [hpush, Option.bind_eq_bind, Option.bind_some]
      have hrounds : total [t] < levels h := by
        rw [total_singleton]
        exact hs.numNodes_lt
      obtain ⟨hok, hfail⟩ := preOrderLoop_spec (o := h.outcomes.rest.rest) hp hs.storedOne hrounds
      rw [List.flatMap_singleton] at hok
      exact ⟨fun hall => hok hall.2.2, fun hn => hfail (fun hrest => hn ⟨h₁, h₂, hrest⟩)⟩
    · rw [pushNext_refused h₂]
      exact ⟨fun hall => absurd hall.2.1 h₂, fun _ => rfl⟩
  · rw [Stack.stackCreate, if_neg h₁]
    exact ⟨fun hall => absurd hall.1 h₁, fun _ => rfl⟩

/-! ### Post-order -/

/-- **The loop moves the nodes** to the second stack, in the pre-order of the mirrored trees. -/
theorem postOrderLoop_spec (hp : Piles stack ts) (hs : Stored h ts) (hr : total ts < rounds)
    {stack2 : Stack.StackT} {entries : List (Nat × Ptr)} (hk : Stack.Keeps stack2 entries) :
    (o.Succeed (total ts + pending ts) → ∃ stack' entries',
      postOrderLoop h rounds o stack stack2 = some stack' ∧ Stack.Keeps stack' entries' ∧
      entries'.map Prod.snd =
        ((ts.flatMap (fun t => preOrder (mirror (stored t)))).map (fun n => some n.1)).reverse ++
          entries.map Prod.snd) ∧
    (¬ o.Succeed (total ts + pending ts) → postOrderLoop h rounds o stack stack2 = none) := by
  induction rounds generalizing ts stack stack2 entries o with
  | zero => exact absurd hr (Nat.not_lt_zero _)
  | succ rounds ih =>
    rcases hp.cons_cases hs with ⟨rfl, hempty⟩ | ⟨n, l, r, ts, stack', rfl, hempty, hpop, hload, hp', hl, hright, hts⟩
    · rw [postOrderLoop, if_pos hempty]
      exact ⟨fun _ => ⟨stack2, entries, rfl, hk, rfl⟩, fun hn => absurd (Outcomes.succeed_zero o) hn⟩
    · rw [postOrderLoop, hempty, if_neg Bool.false_ne_true, hpop]
      simp only [Option.bind_eq_bind, Option.bind_some, hload]
      have hcount : total (.node n l r :: ts) + pending (.node n l r :: ts) =
          (present l).length + (present r).length + (total (present r ++ (present l ++ ts)) +
            pending (present r ++ (present l ++ ts))) + 1 := by
        rw [total_node, pending_node, total_append, total_append, total_present, total_present,
          pending_append, pending_append]
        have hcl := numNodes_present l
        have hcr := numNodes_present r
        omega
      rw [hcount, Outcomes.succeed_succ, Outcomes.succeed_add]
      by_cases ho₁ : o.first = true
      · obtain ⟨stack₂, a, hpush₂, hk₂⟩ := pushNext_ok hk ho₁ (some n.1)
        rw [hpush₂]
        simp only [Option.bind_some]
        obtain ⟨hok, hfail⟩ := hp'.pushChildren (o := o.rest) l r
        by_cases ho : o.rest.Succeed ((present l).length + (present r).length)
        · obtain ⟨stack₁, hpush, hp₁⟩ := hok ho
          have htotal : total (present r ++ (present l ++ ts)) < rounds := by
            rw [total_append, total_append, total_present, total_present]
            rw [total_node] at hr
            omega
          obtain ⟨hrun, hfailrun⟩ := ih hp₁ (hright.append (hl.append hts)) htotal hk₂
          rw [hpush, Option.bind_some]
          refine ⟨fun hall => ?_, fun hn => hfailrun (fun hrest => hn ⟨ho₁, ho, hrest⟩)⟩
          obtain ⟨stack'', entries', hres, hk', hmap⟩ := hrun hall.2.2
          refine ⟨stack'', entries', hres, hk', ?_⟩
          rw [hmap, List.flatMap_append, List.flatMap_append, flatMap_present _ rfl, flatMap_present _ rfl,
            List.flatMap_cons, stored, mirror, preOrder]
          simp [nodeOf]
        · rw [hfail ho]
          exact ⟨fun hall => absurd hall.2.1 ho, fun _ => rfl⟩
      · rw [pushNext_refused ho₁]
        exact ⟨fun hall => absurd hall.1 ho₁, fun _ => rfl⟩

/-- **The iterative post-order print**, for what the allocations answer. -/
theorem binaryTreePostOrderIterativePrint_spec (hs : Spans h root t) (links1 links2 : Lib.Store Stack.Node)
    (ht : t ≠ .nil) :
    (h.outcomes.Succeed (2 * t.numNodes + 2) →
      binaryTreePostOrderIterativePrint links1 links2 h root = some (postOrder (t.map Prod.snd))) ∧
    (¬ h.outcomes.Succeed (2 * t.numNodes + 2) →
      binaryTreePostOrderIterativePrint links1 links2 h root = none) := by
  have hcount : 2 * t.numNodes + 2 = total [t] + pending [t] + 1 + 1 + 1 := by
    rw [total_singleton, numNodes_eq ht]
    omega
  rw [binaryTreePostOrderIterativePrint, hs.root, isNone_ptr ht, if_neg Bool.false_ne_true, hcount,
    Outcomes.succeed_succ, Outcomes.succeed_succ, Outcomes.succeed_succ]
  by_cases h₁ : h.outcomes.first = true
  · obtain ⟨stack1, hcreate, hk, hout⟩ := Stack.keeps_create links1 h₁
    rw [hcreate, Option.bind_eq_bind, Option.bind_some, hout]
    by_cases h₂ : h.outcomes.rest.first = true
    · obtain ⟨stack2, hcreate2, hk₂, hout₂⟩ := Stack.keeps_create links2 h₂
      rw [hcreate2, Option.bind_eq_bind, Option.bind_some, hout₂]
      by_cases h₃ : h.outcomes.rest.rest.first = true
      · obtain ⟨stack', hpush, hp⟩ := pushRoot hk h₃ ht
        have hrounds : total [t] < levels h := by
          rw [total_singleton]
          exact hs.numNodes_lt
        obtain ⟨hok, hfail⟩ := postOrderLoop_spec (o := h.outcomes.rest.rest.rest) hp hs.storedOne hrounds hk₂
        rw [hpush, Option.bind_some]
        dsimp only
        refine ⟨fun hall => ?_, fun hn => ?_⟩
        · obtain ⟨stack'', entries, hrun, hk', hmap⟩ := hok hall.2.2.2
          rw [List.map_nil, List.append_nil, List.flatMap_singleton, ← List.map_reverse, ← mirror_postOrder,
            List.reverse_reverse] at hmap
          have hperm : (postOrder (stored t)).Perm (levelOrder (stored t)) := postOrder_perm _
          have hlen : (postOrder (stored t)).length < levels h := by
            rw [hperm.length_eq, length_stored]
            exact hs.numNodes_lt
          have hpop := popLoop_spec (fun n hn => hs.node n (hperm.mem_iff.mp hn)) hk' hmap hlen
          rw [hrun, Option.bind_some, hpop, ← postOrder_map, map_data_stored]
        · rw [hfail (fun hrest => hn ⟨h₁, h₂, h₃, hrest⟩)]
          rfl
      · rw [pushNext_refused h₃]
        exact ⟨fun hall => absurd hall.2.2.1 h₃, fun _ => rfl⟩
    · rw [Stack.stackCreate, if_neg h₂]
      exact ⟨fun hall => absurd hall.2.1 h₂, fun _ => rfl⟩
  · rw [Stack.stackCreate, if_neg h₁]
    exact ⟨fun hall => absurd hall.1 h₁, fun _ => rfl⟩

/-- **The iterative prints are the recursive ones**, if no allocation is refused; otherwise an
assertion fails.  NULL is printed without an allocation. -/
theorem iterativePrints_eq (hs : Spans h root t) (links1 links2 : Lib.Store Stack.Node) :
    binaryTreePreOrderPrint h root = some (preOrder (t.map Prod.snd)) ∧
    binaryTreePostOrderPrint h root = some (postOrder (t.map Prod.snd)) ∧
    (t = .nil ∨ h.outcomes.Succeed (t.numNodes + 1) →
      binaryTreePreOrderIterativePrint links1 h root = binaryTreePreOrderPrint h root) ∧
    (t = .nil ∨ h.outcomes.Succeed (2 * t.numNodes + 2) →
      binaryTreePostOrderIterativePrint links1 links2 h root = binaryTreePostOrderPrint h root) ∧
    (t ≠ .nil → ¬ h.outcomes.Succeed (t.numNodes + 1) →
      binaryTreePreOrderIterativePrint links1 h root = none) ∧
    (t ≠ .nil → ¬ h.outcomes.Succeed (2 * t.numNodes + 2) →
      binaryTreePostOrderIterativePrint links1 links2 h root = none) := by
  have hpre := binaryTreePreOrderPrint_spec hs
  have hpost := binaryTreePostOrderPrint_spec hs
  refine ⟨hpre, hpost, ?_, ?_, fun ht => (binaryTreePreOrderIterativePrint_spec hs links1 ht).2,
    fun ht => (binaryTreePostOrderIterativePrint_spec hs links1 links2 ht).2⟩
  · rw [hpre]
    rcases eq_or_ne t .nil with rfl | ht
    · rw [hs.root]
      exact fun _ => rfl
    · exact fun ho => (binaryTreePreOrderIterativePrint_spec hs links1 ht).1 (ho.resolve_left ht)
  · rw [hpost]
    rcases eq_or_ne t .nil with rfl | ht
    · rw [hs.root]
      exact fun _ => rfl
    · exact fun ho => (binaryTreePostOrderIterativePrint_spec hs links1 links2 ht).1 (ho.resolve_left ht)

theorem iterativePrints_eq_bent :
    binaryTreePreOrderIterativePrint selfLinks bent (some 0) = some [5, 7, 5] ∧
      binaryTreePostOrderIterativePrint selfLinks selfLinks bent (some 0) = some [5, 7, 5] := by
  obtain ⟨hpre, hpost, hipre, hipost, -, -⟩ := iterativePrints_eq spans_bent selfLinks selfLinks
  exact ⟨(hipre (Or.inr (Outcomes.succeed_allOk _))).trans hpre,
    (hipost (Or.inr (Outcomes.succeed_allOk _))).trans hpost⟩

end DataStructures.BinaryTree
