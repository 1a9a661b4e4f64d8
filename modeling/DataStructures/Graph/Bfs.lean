import DataStructures.Graph.Marks
import DataStructures.Lib.GraphSearch
import DataStructures.Queue.Fifo

/-!
# Breadth-first search and the level of a node

`Searching g s queue visited done waiting depth`: the queue and the marks of a breadth-first search
from `s`; every node is put into the queue once, so that its slots are enough.

* `Searching.next`: one node is taken out of the queue and its neighbours are put in.
* `graphBfs_correct`: `graph_bfs` prints the nodes that can be reached, the nearest first.
* `graphNodeLevel_correct`: the level is the distance from node 0.
-/

namespace DataStructures.Graph

open Lib Walks Queue

variable {g : GraphT} {s curr u : g.Node} {queue : QueueT g.Node} {visited : Marks g}
  {done waiting is : List g.Node} {depth : g.Node → Nat} {room rounds : Nat}

/-- **The loop over the neighbours** puts those into the queue that were not marked. -/
theorem enqueueNeighbours_spec (his : is.Nodup)
    (hq : Queue.Holds queue waiting ((fresh visited curr is).length + room)) :
    ∃ queue' visited', enqueueNeighbours g curr is queue visited = (0, queue', visited') ∧
      Queue.Holds queue' (waiting ++ fresh visited curr is) room ∧
      ∀ v, visited' v = true ↔ visited v = true ∨ v ∈ fresh visited curr is := by
  induction is generalizing queue visited waiting with
  | nil =>
    refine ⟨queue, visited, rfl, ?_, fun v => (or_iff_left List.not_mem_nil).symm⟩
    rw [fresh, List.filter_nil, List.append_nil]
    rwa [fresh, List.filter_nil, List.length_nil, Nat.zero_add] at hq
  | cons i is ih =>
    obtain ⟨hi, his⟩ := List.nodup_cons.mp his
    rw [enqueueNeighbours]
    by_cases hc : g.mat curr i ≠ 0 ∧ visited i = false
    · have hfresh : fresh visited curr (i :: is) = i :: fresh (mark visited i) curr is := by
        rw [fresh_mark hi]
        exact fresh_cons_pos hc
      rw [hfresh, List.length_cons, Nat.add_right_comm] at hq
      obtain ⟨queue₁, hrun, hq₁, -⟩ := hq.enqueue i
      obtain ⟨queue', visited', hloop, hq', hv⟩ := ih his hq₁
      refine ⟨queue', visited', ?_, ?_, fun v => ?_⟩
      · rw [if_pos hc]
        simp only [hrun, ne_eq, not_true, if_false]
        exact hloop
      · rw [hfresh, List.append_cons]
        exact hq'
      · rw [hv, mark_eq_true, hfresh, List.mem_cons, or_assoc, or_left_comm]
    · have hfresh : fresh visited curr (i :: is) = fresh visited curr is :=
        fresh_cons_neg hc
      rw [if_neg hc, hfresh]
      rw [hfresh] at hq
      exact ih his hq

/-! ### The search -/

/-- A search from `s` on its way. -/
structure Searching (g : GraphT) (s : g.Node) (queue : QueueT g.Node) (visited : Marks g)
    (done waiting : List g.Node) (depth : g.Node → Nat) : Prop where
  bfs : Bfs (Edge g) s done waiting depth
  holds : Queue.Holds queue waiting (g.nodes - (done ++ waiting).length)
  marks : ∀ v, visited v = true ↔ v ∈ done ++ waiting

/-- **One node** is taken out of the queue. -/
theorem Searching.next (h : Searching g s queue visited done (u :: waiting) depth) :
    ∃ queue₁ queue' visited' new depth', queueDequeue queue = some (some u, queue₁) ∧
      enqueueNeighbours g u (List.finRange g.nodes) queue₁ visited = (0, queue', visited') ∧
      Searching g s queue' visited' (done ++ [u]) (waiting ++ new) depth' ∧
      (∀ v ∈ done ++ u :: waiting, depth' v = depth v) ∧ ∀ v ∈ new, depth' v = depth u + 1 := by
  obtain ⟨queue₁, hdeq, hq₁, -⟩ := h.holds.dequeue
  have hmem : ∀ v, v ∈ fresh visited u (List.finRange g.nodes) ↔
      Edge g u v ∧ v ∉ done ++ u :: waiting := by
    intro v
    rw [mem_fresh, and_iff_right (List.mem_finRange v), ← Bool.not_eq_true, h.marks]
  have hnodup : (fresh visited u (List.finRange g.nodes)).Nodup := (List.nodup_finRange g.nodes).filter _
  obtain ⟨depth', hbfs, hold, hnew⟩ := h.bfs.next hnodup hmem
  have hlist : done ++ [u] ++ (waiting ++ fresh visited u (List.finRange g.nodes)) =
      (done ++ u :: waiting) ++ fresh visited u (List.finRange g.nodes) := by
    simp
  have hle := length_le_nodes hbfs.nodup
  rw [hlist, List.length_append] at hle
  have hroom : g.nodes - (done ++ u :: waiting).length =
      (fresh visited u (List.finRange g.nodes)).length +
        (g.nodes - ((done ++ u :: waiting) ++ fresh visited u (List.finRange g.nodes)).length) := by
    have hsplit : ((done ++ u :: waiting) ++ fresh visited u (List.finRange g.nodes)).length =
        (done ++ u :: waiting).length + (fresh visited u (List.finRange g.nodes)).length :=
      List.length_append
    omega
  rw [hroom] at hq₁
  obtain ⟨queue', visited', hrun, hq', hv⟩ :=
    enqueueNeighbours_spec (List.nodup_finRange g.nodes) hq₁
  refine ⟨queue₁, queue', visited', _, depth', hdeq, hrun, ⟨hbfs, ?_, fun v => ?_⟩, hold, hnew⟩
  · rw [hlist]
    exact hq'
  · rw [hv, h.marks, hlist, List.mem_append (s := done ++ u :: waiting)]

/-- The search begins. -/
theorem searching_start (h0 : g.nodes ≠ 0) (hq : Queue.Holds queue [] g.nodes) (s : g.Node) :
    ∃ queue', queueEnqueue queue (some s) = (0, queue') ∧
      Searching g s queue' (mark (reset g) s) [] [s] (fun _ => 0) := by
  obtain ⟨n, hn⟩ := Nat.exists_eq_succ_of_ne_zero h0
  rw [hn] at hq
  obtain ⟨queue', hrun, hq', -⟩ := hq.enqueue s
  refine ⟨queue', hrun, bfs_start s, ?_, fun v => ?_⟩
  · rw [List.nil_append, List.length_singleton, hn]
    exact hq'
  · rw [mark_eq_true, List.nil_append, List.mem_singleton, reset]
    exact or_iff_left Bool.false_ne_true

/-- **The loop of `graph_bfs`.** -/
theorem bfsLoop_spec (h : Searching g s queue visited done waiting depth)
    (hr : g.nodes < done.length + rounds) : ∃ printed visited' depth',
      bfsLoop g rounds queue visited = some (0, printed, visited') ∧
      Bfs (Edge g) s (done ++ printed) [] depth' ∧ ∀ v, visited' v = true ↔ v ∈ done ++ printed := by
  induction rounds generalizing queue visited done waiting depth with
  | zero =>
    have hle := length_le_nodes h.bfs.nodup
    rw [List.length_append] at hle
    omega
  | succ rounds ih =>
    rw [bfsLoop, h.holds.isEmpty]
    cases waiting with
    | nil =>
      have hbfs := h.bfs
      have hmarks := h.marks
      refine ⟨[], visited, depth, rfl, ?_, hmarks⟩
      rwa [List.append_nil]
    | cons u waiting =>
      obtain ⟨queue₁, queue', visited', new, depth', hdeq, hrun, hnext, -, -⟩ := h.next
      obtain ⟨printed, visited'', depth'', hloop, hbfs, hmarks⟩ := ih hnext
        (by rw [List.length_append, List.length_singleton]; omega)
      rw [← List.append_cons] at hbfs hmarks
      refine ⟨u :: printed, visited'', depth'', ?_, hbfs, hmarks⟩
      simp only [hdeq, hrun, hloop, List.isEmpty_cons, Option.bind_eq_bind, Option.bind_some, ne_eq,
        not_true, if_false, Bool.false_eq_true]
      rfl

/-- The next `n` allocations succeed. -/
def Succeeds (outcomes : Outcomes) (n : Nat) : Prop := ∀ i < n, outcomes i = true

theorem succeeds_three {outcomes : Outcomes} : Succeeds outcomes 3 ↔
    outcomes.first = true ∧ outcomes.rest.first = true ∧ outcomes.rest.rest.first = true := by
  refine ⟨fun h => ⟨h 0 (by decide), h 1 (by decide), h 2 (by decide)⟩, fun ⟨h0, h1, h2⟩ i hi => ?_⟩
  obtain rfl | rfl | rfl : i = 0 ∨ i = 1 ∨ i = 2 := by omega
  · exact h0
  · exact h1
  · exact h2

/-- The queue is not created. -/
theorem queueCreate_rest_fails {outcomes : Outcomes} (h0 : outcomes.first = true)
    (h : ¬ Succeeds outcomes 3) : ∃ o, queueCreate g.Node g.nodes outcomes.rest = (none, o) :=
  queueCreate_fails (fun h12 => h (succeeds_three.mpr ⟨h0, h12⟩)) g.nodes

/-- **`graph_bfs`** prints what can be reached, the nearest first. -/
theorem graphBfs_correct (g : GraphT) (s : g.Node) (visited : Marks g) {outcomes : Outcomes}
    (h : Succeeds outcomes 3) : ∃ (printed : List g.Node) (visited' : Marks g) (depth : g.Node → Nat),
      graphBfs g visited s.val outcomes = some (0, printed, visited') ∧ printed.Nodup ∧
      (∀ v, v ∈ printed ↔ Reachable (Edge g) s v) ∧
      (∀ v ∈ printed, IsLeast (Lengths (Edge g) s v) (depth v)) ∧
      printed.Pairwise (fun u v => depth u ≤ depth v) ∧ ∀ v, visited' v = true ↔ v ∈ printed := by
  obtain ⟨h0, h1, h2⟩ := succeeds_three.mp h
  obtain ⟨queue, hcreate, hq, -⟩ := queueCreate_of (E := g.Node) h1 h2 g.nodes
  obtain ⟨queue₁, henq, hstart⟩ := searching_start s.pos.ne' hq s
  obtain ⟨printed, visited', depth, hrun, hbfs, hmarks⟩ := bfsLoop_spec hstart
    (show g.nodes < 0 + (g.nodes + 1) by omega)
  rw [List.nil_append] at hbfs hmarks
  have hnodup := hbfs.nodup
  have hsorted := hbfs.sorted
  rw [List.append_nil] at hnodup hsorted
  refine ⟨printed, visited', depth, ?_, hnodup, fun v => hbfs.mem_iff, fun v hv => ?_, hsorted, hmarks⟩
  · rw [graphBfs, dif_pos s.isLt, h0, hcreate]
    simp only [henq, hrun, Bool.not_true, Bool.false_eq_true, if_false, ne_eq, not_true]
  · exact hbfs.isLeast (List.mem_append_left [] hv) (fun q hq => absurd hq List.not_mem_nil)

theorem graphBfs_fails (g : GraphT) (s : g.Node) (visited : Marks g) {outcomes : Outcomes}
    (h : ¬ Succeeds outcomes 3) :
    ∃ rv visited', graphBfs g visited s.val outcomes = some (rv, [], visited') ∧ rv < 0 := by
  rw [graphBfs, dif_pos s.isLt]
  by_cases h0 : outcomes.first = true
  · obtain ⟨o, hcreate⟩ := queueCreate_rest_fails h0 h
    rw [h0, hcreate]
    exact ⟨-3, reset g, rfl, by decide⟩
  · rw [Bool.not_eq_true] at h0
    rw [h0]
    exact ⟨-2, visited, rfl, by decide⟩

/-! ### The level of a node -/

/-- The nodes at the distance `level` wait, and then those that are farther by one. -/
structure Level (depth : g.Node → Nat) (level : Nat) (here next : List g.Node) : Prop where
  here : ∀ v ∈ here, depth v = level
  next : ∀ v ∈ next, depth v = level + 1

/-- **One level**: the node is found, or the next level waits. -/
theorem levelRound_spec {t level : Nat} {here next : List g.Node}
    (h : Searching g s queue visited done (here ++ next) depth) (hl : Level depth level here next)
    (ht : ∀ v ∈ done, v.val ≠ t) :
    (∃ visited' ht, levelRound g t here.length queue visited = some (.error (0, visited')) ∧
      IsLeast (Lengths (Edge g) s ⟨t, ht⟩) level) ∨
    ∃ queue' visited' next' depth',
      levelRound g t here.length queue visited = some (.ok (queue', visited')) ∧
      Searching g s queue' visited' (done ++ here) next' depth' ∧
      (∀ v ∈ next', depth' v = level + 1) ∧ ∀ v ∈ done ++ here, v.val ≠ t := by
  induction here generalizing queue visited done next depth with
  | nil =>
    rw [List.append_nil]
    exact Or.inr ⟨queue, visited, next, depth, rfl, h, hl.next, ht⟩
  | cons u here ih =>
    have hsearch : Searching g s queue visited done (u :: (here ++ next)) depth := h
    obtain ⟨queue₁, queue', visited', new, depth', hdeq, hrun, hnext, hold, hnew⟩ := hsearch.next
    have hu : depth u = level := hl.here u List.mem_cons_self
    rw [List.length_cons, levelRound, hdeq, Option.bind_eq_bind, Option.bind_some]
    by_cases hut : u.val = t
    · subst hut
      refine Or.inl ⟨visited, u.isLt, ?_, ?_⟩
      · simp only [if_true]
        rfl
      · rw [← hu]
        refine h.bfs.isLeast (List.mem_append_right done List.mem_cons_self) (fun q hq => ?_)
        rcases List.mem_append.mp hq with hq | hq
        · exact Nat.le_of_eq (hu.trans (hl.here q hq).symm)
        · rw [hu, hl.next q hq]
          exact Nat.le_succ level
    · have hin : ∀ {v}, v ∈ here ++ next → v ∈ done ++ u :: (here ++ next) := fun hv =>
        List.mem_append_right done (List.mem_cons_of_mem u hv)
      rw [List.append_assoc] at hnext
      have hl' : Level depth' level here (next ++ new) := by
        refine ⟨fun v hv => ?_, fun v hv => ?_⟩
        · rw [hold v (hin (List.mem_append_left next hv))]
          exact hl.here v (List.mem_cons_of_mem u hv)
        · rcases List.mem_append.mp hv with hv | hv
          · rw [hold v (hin (List.mem_append_right here hv))]
            exact hl.next v hv
          · rw [hnew v hv, hu]
      have ht' : ∀ v ∈ done ++ [u], v.val ≠ t :=
        List.forall_mem_append.mpr ⟨ht, List.forall_mem_singleton.mpr hut⟩
      have hrest := ih hnext hl' ht'
      rw [← List.append_cons] at hrest
      simp only [if_neg hut, hrun, ne_eq, not_true, if_false]
      exact hrest

/-- The distance from `s` to the node with the number `t`, and −1 if there is none. -/
def IsLevel (g : GraphT) (s : g.Node) (t : Nat) (level : Int) : Prop :=
  (∃ (ht : t < g.nodes) (k : Nat), IsLeast (Lengths (Edge g) s ⟨t, ht⟩) k ∧ level = k) ∨
    (∀ ht : t < g.nodes, ¬ Reachable (Edge g) s ⟨t, ht⟩) ∧ level = -1

/-- **The loop over the levels.** -/
theorem levelLoop_spec {t level : Nat} (h : Searching g s queue visited done waiting depth)
    (hw : ∀ v ∈ waiting, depth v = level) (ht : ∀ v ∈ done, v.val ≠ t) (hl : level ≤ done.length)
    (hr : g.nodes < done.length + rounds) : ∃ level' visited',
      levelLoop g t rounds queue visited (Int8.ofNat level) = some (0, level', visited') ∧
        IsLevel g s t level'.toInt := by
  have hle := length_le_nodes h.bfs.nodup
  rw [List.length_append] at hle
  induction rounds generalizing queue visited done waiting depth level with
  | zero => omega
  | succ rounds ih =>
    rw [levelLoop, h.holds.isEmpty, h.holds.size_eq]
    cases waiting with
    | nil =>
      refine ⟨-1, visited, rfl, Or.inr ⟨fun hlt hreach => ?_, rfl⟩⟩
      exact ht _ (h.bfs.mem_iff.mpr hreach) rfl
    | cons u waiting =>
      have hn := g.nodes_le
      rw [List.length_cons] at hle
      have hsearch : Searching g s queue visited done (u :: waiting ++ []) depth := by
        rwa [List.append_nil]
      rcases levelRound_spec hsearch ⟨hw, fun v hv => absurd hv List.not_mem_nil⟩ ht with
        ⟨visited', hlt, hrun, hleast⟩ | ⟨queue', visited', next', depth', hrun, hnext, hw', ht'⟩
      · refine ⟨Int8.ofNat level, visited', ?_, Or.inl ⟨hlt, level, hleast, ?_⟩⟩
        · rw [hrun]
          rfl
        · exact Int8.toInt_ofNat_of_lt (by omega)
      · have hle' := length_le_nodes hnext.bfs.nodup
        rw [List.length_append] at hle'
        have hlen : (done ++ u :: waiting).length = done.length + waiting.length + 1 := by
          rw [List.length_append, List.length_cons, Nat.add_assoc]
        obtain ⟨level', visited'', hloop, hlevel⟩ := ih hnext hw' ht' (by omega) (by omega) hle'
        refine ⟨level', visited'', ?_, hlevel⟩
        rw [hrun]
        rw [Int8.ofNat_add] at hloop
        exact hloop

/-- **`graph_node_level`** finds the distance from node 0. -/
theorem graphNodeLevel_correct (g : GraphT) (h0 : 0 < g.nodes) (visited : Marks g) (t : Nat)
    (level : Int8) {outcomes : Outcomes} (h : Succeeds outcomes 3) : ∃ level' visited',
      graphNodeLevel g visited t level outcomes = some (0, level', visited') ∧
        IsLevel g ⟨0, h0⟩ t level'.toInt := by
  obtain ⟨hfirst, h1, h2⟩ := succeeds_three.mp h
  obtain ⟨queue, hcreate, hq, -⟩ := queueCreate_of (E := g.Node) h1 h2 g.nodes
  obtain ⟨queue₁, henq, hstart⟩ := searching_start h0.ne' hq ⟨0, h0⟩
  obtain ⟨level', visited', hrun, hlevel⟩ := levelLoop_spec (t := t) hstart
    (show ∀ v ∈ _, 0 = 0 from fun _ _ => rfl) (fun v hv => absurd hv List.not_mem_nil)
    (Nat.zero_le _) (show g.nodes < 0 + (g.nodes + 1) by omega)
  refine ⟨level', visited', ?_, hlevel⟩
  rw [graphNodeLevel, hfirst, hcreate]
  simp only [dif_pos h0, henq, Bool.not_true, Bool.false_eq_true, if_false, ne_eq, not_true]
  exact hrun

theorem graphNodeLevel_fails (g : GraphT) (visited : Marks g) (t : Nat) (level : Int8)
    {outcomes : Outcomes} (h : ¬ Succeeds outcomes 3) :
    ∃ rv visited', graphNodeLevel g visited t level outcomes = some (rv, level, visited') ∧ rv < 0 := by
  rw [graphNodeLevel]
  by_cases h0 : outcomes.first = true
  · obtain ⟨o, hcreate⟩ := queueCreate_rest_fails h0 h
    rw [h0, hcreate]
    exact ⟨-3, reset g, rfl, by decide⟩
  · rw [Bool.not_eq_true] at h0
    rw [h0]
    exact ⟨-2, visited, rfl, by decide⟩

/-- **Breadth-first search and levels.** -/
theorem breadthFirst_correct (g : GraphT) (s : g.Node) (visited : Marks g) (outcomes : Outcomes) :
    (Succeeds outcomes 3 →
      (∃ (printed : List g.Node) (visited' : Marks g) (depth : g.Node → Nat),
        graphBfs g visited s.val outcomes = some (0, printed, visited') ∧ printed.Nodup ∧
        (∀ v, v ∈ printed ↔ Reachable (Edge g) s v) ∧
        (∀ v ∈ printed, IsLeast (Lengths (Edge g) s v) (depth v)) ∧
        printed.Pairwise (fun u v => depth u ≤ depth v) ∧
        ∀ v, visited' v = true ↔ v ∈ printed) ∧
      ∀ t level, ∃ level' visited',
        graphNodeLevel g visited t level outcomes = some (0, level', visited') ∧
          IsLevel g ⟨0, s.pos⟩ t level'.toInt) ∧
    (¬ Succeeds outcomes 3 →
      (∃ rv visited', graphBfs g visited s.val outcomes = some (rv, [], visited') ∧ rv < 0) ∧
      ∀ t level, ∃ rv visited',
        graphNodeLevel g visited t level outcomes = some (rv, level, visited') ∧ rv < 0) := by
  refine ⟨fun h => ⟨graphBfs_correct g s visited h, fun t level => ?_⟩,
    fun h => ⟨graphBfs_fails g s visited h, fun t level => ?_⟩⟩
  · exact graphNodeLevel_correct g s.pos visited t level h
  · exact graphNodeLevel_fails g visited t level h

end DataStructures.Graph
