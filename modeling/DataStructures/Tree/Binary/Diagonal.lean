import DataStructures.Lib.Diagonals
import DataStructures.Tree.Binary.Stacks

/-!
# Printing in diagonals

The cursor goes along links to the right, and the left children on the way are put into the queue; at the
end of a spine the cursor is taken from the queue.  So the queue comes to one generation of spines after
the other, and with at most 128 left children it has room for all of them.
-/

namespace DataStructures.BinaryTree

open Lib BreadthFirst LevelOrder Diagonals

variable {h : Heap} {t c : Tree} {ts : List Tree} {v : List (Tree × Tree)} {queue : Queue.QueueT Nat}
  {room rounds : Nat} {root : Ptr}

/-- The addresses of the roots. -/
def addrs (ts : List Tree) : List Nat := ts.flatMap (fun t => (ptr t).toList)

theorem addrs_append (ts us : List Tree) : addrs (ts ++ us) = addrs ts ++ addrs us := List.flatMap_append

theorem addrs_present (t : Tree) : addrs (present t) = (ptr t).toList :=
  flatMap_present (fun t => (ptr t).toList) rfl t

theorem length_present (t : Tree) : (ptr t).toList.length = (present t).length := by
  cases t with
  | nil => rfl
  | node n l r => rfl

theorem ne_nil_present (t : Tree) : ∀ s ∈ present t, s ≠ .nil := by
  cases t with
  | nil => exact fun _ hs => absurd hs List.not_mem_nil
  | node n l r =>
    intro s hs
    rw [List.mem_singleton.mp hs]
    exact nofun

/-! ### The queue -/

/-- **In the queue are the roots of the trees**, whose nodes are stored, and there is room for more. -/
structure Queued (h : Heap) (queue : Queue.QueueT Nat) (ts : List Tree) (room : Nat) : Prop where
  holds : Queue.Holds queue (addrs ts) room
  stored : Stored h ts
  ne_nil : ∀ t ∈ ts, t ≠ .nil

/-- A child that is there is put into the queue. -/
theorem Queued.enqueueChild (hq : Queued h queue ts room) (hl : Stored h (present t))
    (hroom : (present t).length ≤ room) : ∃ queue',
      BinaryTree.enqueueChild queue (ptr t) = some queue' ∧
      Queued h queue' (ts ++ present t) (room - (present t).length) := by
  rw [← length_present] at hroom
  obtain ⟨queue', hr, hq', -⟩ := enqueueChild_spec hq.holds (ptr t) hroom
  rw [length_present, ← addrs_present, ← addrs_append] at hq'
  refine ⟨queue', hr, hq', hq.stored.append hl, fun s hs => ?_⟩
  rcases List.mem_append.mp hs with hs | hs
  · exact hq.ne_nil s hs
  · exact ne_nil_present t s hs

theorem Queued.dequeue (hq : Queued h queue (t :: ts) room) : ∃ queue',
    Queue.queueDequeue queue = some (ptr t, queue') ∧ Queued h queue' ts room := by
  obtain ⟨ht, hts⟩ := List.forall_mem_cons.mp hq.ne_nil
  obtain ⟨a, ha⟩ := Option.ne_none_iff_exists'.mp (mt ptr_eq_none.mp ht)
  have hcons : addrs (t :: ts) = a :: addrs ts := by
    rw [addrs, List.flatMap_cons, ha]
    rfl
  have hholds := hq.holds
  rw [hcons] at hholds
  obtain ⟨queue', hr, hq', -⟩ := hholds.dequeue
  exact ⟨queue', ha ▸ hr, hq', (List.forall_mem_cons.mp hq.stored).2, hts⟩

/-! ### The loop -/

/-- **The loop prints the spine of the cursor**, and then those the queue comes to. -/
theorem diagonalLoop_spec (hc : c ≠ .nil) (hs : Stored h [c]) (hq : Queued h queue ts room)
    (hv : Visits some lefts (ts ++ lefts c) v) (hroom : v.length ≤ ts.length + room)
    (hr : (spine c).length + (v.flatMap (fun s => spine s.2)).length < rounds) :
    diagonalLoop h rounds queue (ptr c) =
      some ((spine c ++ v.flatMap (fun s => spine s.2)).map Prod.snd) := by
  induction rounds generalizing c ts v queue room with
  | zero => exact absurd hr (Nat.not_lt_zero _)
  | succ rounds ih =>
    cases c with
    | nil => exact absurd rfl hc
    | node n l r =>
      obtain ⟨hroot, hl, hright, -⟩ := hs.node
      have hload : h.load (some n.1) = some ⟨n.2, ptr l, ptr r⟩ := hroot
      have hle := hv.length_le
      rw [lefts, List.length_append, List.length_append] at hle
      obtain ⟨queue', henq, hq'⟩ := hq.enqueueChild hl (by omega)
      have hroom' : v.length ≤ (ts ++ present l).length + (room - (present l).length) := by
        rw [List.length_append]
        omega
      rw [lefts, ← List.append_assoc] at hv
      rw [ptr, diagonalLoop, hload]
      simp only [Option.bind_eq_bind, Option.bind_some, henq]
      cases r with
      | node m u w =>
        have hr' : (spine (.node m u w)).length + (v.flatMap (fun s => spine s.2)).length < rounds := by
          rw [spine, List.length_cons] at hr
          omega
        have hnext := ih (c := .node m u w) (fun h => by cases h) hright hq' hv hroom' hr'
        rw [show (ptr (.node m u w)).isSome = true from rfl, if_pos rfl, hnext]
        rfl
      | nil =>
        -- the spine ends here
        rw [show (ptr .nil).isSome = false from rfl, if_neg Bool.false_ne_true]
        rw [lefts, List.append_nil] at hv
        generalize ts ++ present l = queued at hv hq' hroom'
        cases hv with
        | done =>
          rw [hq'.holds.dequeue_nil]
          obtain ⟨rounds, rfl⟩ := Nat.exists_eq_add_of_lt (show 0 < rounds by simpa [spine] using hr)
          rw [Nat.zero_add]
          rfl
        | @step s s' queued v hs hv =>
          obtain rfl := Option.some.inj hs
          obtain ⟨hsne, -⟩ := List.forall_mem_cons.mp hq'.ne_nil
          obtain ⟨hself, -⟩ := List.forall_mem_cons.mp hq'.stored
          obtain ⟨queue'', hdeq, hq''⟩ := hq'.dequeue
          rw [List.length_cons, List.length_cons] at hroom'
          have hr' : (spine s).length + (v.flatMap (fun s => spine s.2)).length < rounds := by
            rw [List.flatMap_cons, List.length_append, spine, List.length_cons] at hr
            dsimp only at hr
            omega
          have hnext := ih hsne (List.forall_mem_singleton.mpr hself) hq'' hv (by omega) hr'
          rw [hdeq, Option.bind_some, hnext]
          rfl

/-- **The diagonal print**: a tree with at most 128 left children is printed diagonal by diagonal, if no
allocation is refused; otherwise an assertion fails. -/
theorem diagonalPrint_outcomes (hs : Spans h root t) (ht : t ≠ .nil) (hleft : numLefts t ≤ 128) :
    (h.outcomes.Succeed 2 → binaryTreeDiagonalPrint h root = some ((diagonals t).map Prod.snd)) ∧
    (¬ h.outcomes.Succeed 2 → binaryTreeDiagonalPrint h root = none) := by
  rw [binaryTreeDiagonalPrint, hs.root, isNone_ptr ht, if_neg Bool.false_ne_true]
  refine ⟨fun ho => ?_, fun ho => by rw [createQueue_refused ho]; rfl⟩
  obtain ⟨queue, hcreate, hempty, -⟩ := createQueue_of ho
  have hv := visits_generation t
  have hprinted : ((List.range t.height).flatMap (fun k => (generation t k).map (fun s => (s, s)))).flatMap
      (fun s => spine s.2) = diagonals t := by
    rw [List.flatMap_assoc, diagonals]
    refine List.flatMap_congr fun k _ => ?_
    rw [List.flatMap_map, ← flatMap_spine]
  generalize (List.range t.height).flatMap (fun k => (generation t k).map (fun s => (s, s))) = v at hv hprinted
  have hpresent : present t = [t] := by
    cases t with
    | nil => exact absurd rfl ht
    | node n l r => rfl
  rw [hpresent] at hv
  cases hv with
  | @step _ s _ v hsome hv =>
    obtain rfl := Option.some.inj hsome
    have hlen := length_visits hv
    rw [List.nil_append] at hv hlen
    rw [← numLefts_eq] at hlen
    have hlt : (spine t).length + (v.flatMap (fun s => spine s.2)).length < levels h := by
      rw [List.flatMap_cons] at hprinted
      rw [← List.length_append, hprinted, (diagonals_perm t).length_eq, length_levelOrder]
      exact hs.numNodes_lt
    have hstored : Stored { h with outcomes := h.outcomes.later 2 } [t] := hs.storedOne
    have hqueued : Queued { h with outcomes := h.outcomes.later 2 } queue [] 128 :=
      ⟨hempty, fun _ hm => absurd hm List.not_mem_nil, fun _ hm => absurd hm List.not_mem_nil⟩
    have hloop := diagonalLoop_spec ht hstored hqueued hv (by rw [hlen, List.length_nil]; omega) hlt
    rw [hcreate, Option.bind_eq_bind, Option.bind_some, ← hprinted]
    exact hloop

/-- **Diagonal traversal**: a tree with at most 128 left children is printed in an order that has each
node once, with no fewer links to the left on the path than those before it, and each right child right
after its parent. -/
theorem binaryTreeDiagonalPrint_spec (hs : Spans h root t) (hleft : numLefts t ≤ 128) :
    (∃ visited : List (List Bool × (Nat × Int)),
      (t = .nil ∨ h.outcomes.Succeed 2 →
        binaryTreeDiagonalPrint h root = some (visited.map (fun m => m.2.2))) ∧
      visited.Perm (levelOrder (located t [])) ∧ (visited.map (fun m => m.2.1)).Nodup ∧
      visited.Pairwise (fun m n => m.1.count false ≤ n.1.count false) ∧
      ∀ m l n u w, .node m l (.node n u w) ∈ levelOrder (subtrees (located t [])) →
        ∃ pre post, visited = pre ++ m :: n :: post) ∧
    (t ≠ .nil → ¬ h.outcomes.Succeed 2 → binaryTreeDiagonalPrint h root = none) := by
  refine ⟨⟨diagonals (located t []), ?_, diagonals_perm _, ?_, pairwise_diagonals t,
    fun _ _ _ _ _ hm => diagonals_right hm⟩, fun ht => (diagonalPrint_outcomes hs ht hleft).2⟩
  · have hmap : (diagonals (located t [])).map (fun m => m.2.2) = (diagonals t).map Prod.snd := by
      rw [← map_snd_located t [], diagonals_map, map_snd_located, List.map_map]
      rfl
    rw [hmap]
    rcases eq_or_ne t .nil with rfl | ht
    · rw [hs.root]
      exact fun _ => rfl
    · exact fun ho => (diagonalPrint_outcomes hs ht hleft).1 (ho.resolve_left ht)
  · have hmap : (diagonals (located t [])).map (fun m => m.2.1) = (diagonals t).map Prod.fst := by
      rw [← map_snd_located t [], diagonals_map, map_snd_located, List.map_map]
      rfl
    rw [hmap, ((diagonals_perm t).map Prod.fst).nodup_iff]
    exact hs.nodup

theorem binaryTreeDiagonalPrint_bent : ∃ visited : List (List Bool × (Nat × Int)),
    binaryTreeDiagonalPrint bent (some 0) = some (visited.map (fun m => m.2.2)) ∧
      visited.Perm (levelOrder (located bentTree [])) := by
  obtain ⟨⟨visited, hrun, hperm, -, -, -⟩, -⟩ := binaryTreeDiagonalPrint_spec spans_bent (by decide)
  exact ⟨visited, hrun (Or.inr (Outcomes.succeed_allOk _)), hperm⟩

end DataStructures.BinaryTree
