import DataStructures.Graph.BellmanFord
import DataStructures.Graph.CountCycles
import DataStructures.Graph.Dfs
import DataStructures.Lib.CycleWalks

/-!
# Where the functions on graphs agree

* `reached_agree`: `graph_bellman_ford` dumps a distance for the nodes that `graph_bfs` and `graph_dfs`
  print and for no others, also when there are negative cycles.
* `plain_levels`: in a graph that is built of edges without weights, the distances are the levels of
  `graph_node_level`.
* `graphNlengthCycles_eq`: the number of cycles, and when it is too large for an `int`.
* `detectCycle_iff_nlength`: `graph_detect_cycle` and `graph_nlength_cycles`.
-/

namespace DataStructures.Graph

open Lib Walks CountCycles Forests

variable {g : GraphT} {s u v curr src : g.Node} {b len n rounds : Nat} {dist : g.Node → Int}
  {visited : Marks g} {l : List g.Node}

/-! ### What is reached -/

/-- **A node that can be reached** has got a distance. -/
theorem Dist.ne_intMax_iff (h : Dist g s b dist) (hb : b < 2 ^ 20) (hs : dist s ≤ 0)
    (hcase : Closed g dist ∨ Below g s (g.nodes - 1) dist) :
    dist v ≠ intMax ↔ Reachable (Edge g) s v := by
  refine ⟨fun hv => ?_, fun hr => ?_⟩
  · obtain ⟨l, hl, -⟩ := h.sound v hv
    exact ⟨l, hl⟩
  · rcases hcase with hclosed | hbelow
    · have hsfin : dist s ≠ intMax := by
        unfold intMax
        omega
      obtain ⟨l, hl⟩ := hr
      exact (hclosed.walk h hb hl hsfin).1
    · obtain ⟨l, hl⟩ := hr
      obtain ⟨l', hl', hnd⟩ := hl.exists_nodup
      have hlen := length_lt_card hnd
      rw [Fintype.card_fin] at hlen
      exact (hbelow l' v hl' (by omega)).1

/-- **The distances** of `graph_bellman_ford` are those of the nodes that the searches print, whatever
the weights are. -/
theorem reached_agree (g : GraphT) (s : g.Node) (visited : Marks g) (hasNegCycle : Bool)
    {outcomes outcomes' : Outcomes} (hb : outcomes.first = true) (h3 : Succeeds outcomes' 3) :
    ∃ (found : Bool) (dump : List Int) (printed printed' : List g.Node) (visited' : Marks g),
      graphBellmanFord g s.val hasNegCycle outcomes = some (0, found, dump) ∧
      graphBfs g visited s.val outcomes' = some (0, printed, visited') ∧
      graphDfs g visited s.val = some (0, printed', visited') ∧ printed.Perm printed' ∧
      ∀ v : g.Node, ∃ d, dump[v.val]? = some d ∧ (v ∈ printed ↔ d ≠ intMax) := by
  obtain ⟨dist, found, -, hrun, hd, hs, hcase, -⟩ := graphBellmanFord_run g s hasNegCycle hb
  obtain ⟨printed, visited', depth, hbfs, hnd, hmem, -, -, hmarks⟩ := graphBfs_correct g s visited h3
  obtain ⟨rest, visited₂, hdfs, hexp, hfound⟩ := graphDfsHelper_spec
    (show reset g s = false from rfl) (Nat.le_of_eq unmarked_reset)
  have hmarks₂ : ∀ v, visited₂ v = true ↔ v ∈ s :: rest := fun v =>
    (hexp.marks v).trans (or_iff_right Bool.false_ne_true)
  have hreach : ∀ v, v ∈ s :: rest ↔ Reachable (Edge g) s v := by
    refine fun v => ⟨hfound.reachable, fun hv => ?_⟩
    exact hv.mem_of_closed (P := (· ∈ s :: rest)) List.mem_cons_self fun x y hx he =>
      (hmarks₂ y).mp (hexp.closed x hx y he)
  have hsame : ∀ v, v ∈ printed ↔ v ∈ s :: rest := fun v => (hmem v).trans (hreach v).symm
  obtain rfl : visited₂ = visited' := by
    funext v
    rw [Bool.eq_iff_iff, hmarks₂, hmarks, hsame]
  refine ⟨found, _, printed, s :: rest, visited₂, hrun, hbfs, ?_,
    (List.perm_ext_iff_of_nodup hnd hexp.nodup).mpr hsame, fun v => ⟨dist v, by simp, ?_⟩⟩
  · rw [graphDfs, dif_pos s.isLt, hdfs]
    rfl
  · rw [hmem, hd.ne_intMax_iff (relaxations_lt g) hs hcase]

theorem reached_agree_triangle : Succeeds (fun _ => true) 3 ∧
    ∃ (found : Bool) (dump : List Int) (printed printed' : List triangle.Node)
      (visited' : Marks triangle),
      graphBellmanFord triangle 0 false (fun _ => true) = some (0, found, dump) ∧
      graphBfs triangle (reset triangle) 0 (fun _ => true) = some (0, printed, visited') ∧
      graphDfs triangle (reset triangle) 0 = some (0, printed', visited') ∧
      printed.Perm printed' ∧
      ∀ v : triangle.Node, ∃ d, dump[v.val]? = some d ∧ (v ∈ printed ↔ d ≠ intMax) :=
  ⟨fun _ _ => rfl, reached_agree triangle (0 : Fin 3) (reset triangle) false rfl fun _ _ => rfl⟩

/-! ### Edges without weights -/

/-- What `graph_create` and then edges without weights leave. -/
inductive Plain : GraphT → Prop
  | create {nodes : Nat} {outcomes : Outcomes} {g : GraphT}
      (call : graphCreate nodes outcomes = some g) : Plain g
  | directed {g : GraphT} (prior : Plain g) (s d : Nat) : Plain (graphAddDirectedEdge g s d).2
  | undirected {g : GraphT} (prior : Plain g) (s d : Nat) : Plain (graphAddUndirectedEdge g s d).2

/-- An edge has the weight 1. -/
def Unweighted (g : GraphT) : Prop := ∀ u v, g.mat u v = 0 ∨ g.mat u v = 1

theorem Unweighted.graphAddDirectedEdge (h : Unweighted g) (s d : Nat) :
    Unweighted (Graph.graphAddDirectedEdge g s d).2 := by
  rw [Graph.graphAddDirectedEdge, graphAddDirectedWedge]
  split
  · intro u v
    by_cases huv : u.val = s ∧ v.val = d
    · exact Or.inr (if_pos huv)
    · have hg := h u v
      simpa [huv] using hg
  · exact h

theorem Unweighted.graphAddUndirectedEdge (h : Unweighted g) (s d : Nat) :
    Unweighted (Graph.graphAddUndirectedEdge g s d).2 := by
  rw [Graph.graphAddUndirectedEdge, Graph.graphAddUndirectedWedge]
  split
  · intro u v
    by_cases hvu : u.val = d ∧ v.val = s
    · exact Or.inr (if_pos hvu)
    by_cases huv : u.val = s ∧ v.val = d
    · exact Or.inr ((if_neg hvu).trans (if_pos huv))
    · have hg := h u v
      simpa [hvu, huv] using hg
  · exact h

/-- **Every edge** has the weight 1. -/
theorem Plain.unweighted (hp : Plain g) : Unweighted g := by
  induction hp with
  | @create nodes outcomes g call =>
    rw [graphCreate] at call
    split_ifs at call
    obtain rfl := Option.some.inj call
    exact fun u v => Or.inl rfl
  | directed _ s d ih => exact ih.graphAddDirectedEdge s d
  | undirected _ s d ih => exact ih.graphAddUndirectedEdge s d

theorem Plain.weight_eq (hp : Plain g) (u v : g.Node) (he : Edge g u v) : weight g u v = 1 := by
  rw [weight, (hp.unweighted u v).resolve_left he]
  rfl

/-- **The weight of a walk** is its length. -/
theorem Plain.weight_walk (hp : Plain g) (hl : Walk (Edge g) u l v) :
    Walks.weight (weight g) u l = l.length := by
  rw [weight_eq_mul hp.weight_eq hl, Int.one_mul]

/-- Where all distances are closed they are the levels. -/
theorem Plain.dist_eq (hp : Plain g) (h : Dist g s b dist) (hb : b < 2 ^ 20) (hs : dist s ≤ 0)
    (hc : Closed g dist) {level : Int8} (hlevel : IsLevel g s v.val level.toInt) :
    dist v = if level = -1 then intMax else level.toInt := by
  rcases hlevel with ⟨_, k, ⟨⟨l, hl, rfl⟩, hleast⟩, hk⟩ | ⟨hno, hm⟩
  · have hne : level ≠ -1 := by
      rintro rfl
      have hneg : ((-1 : Int8)).toInt = -1 := rfl
      omega
    have hfin : dist v ≠ intMax := (h.ne_intMax_iff hb hs (Or.inl hc)).mpr ⟨l, hl⟩
    obtain ⟨l', hl', hw⟩ := h.sound v hfin
    have hshort : l.length ≤ l'.length := hleast ⟨l', hl', rfl⟩
    have hsfin : dist s ≠ intMax := by
      unfold intMax
      omega
    have hle : dist v ≤ dist s + Walks.weight (weight g) s l := (hc.walk h hb hl hsfin).2
    rw [hp.weight_walk hl'] at hw
    rw [hp.weight_walk hl] at hle
    rw [if_neg hne, hk]
    omega
  · have hone : level = -1 := Int8.toInt_inj.mp hm
    rw [if_pos hone]
    by_contra hfin
    exact hno v.isLt ((h.ne_intMax_iff hb hs (Or.inl hc)).mp hfin)

/-- **Without weights** `graph_bellman_ford` from node 0 finds no negative cycle, and its distances are the
levels that `graph_node_level` finds. -/
theorem plain_levels (g : GraphT) (hp : Plain g) (h0 : 0 < g.nodes) (visited : Marks g)
    (hasNegCycle : Bool) {outcomes outcomes' : Outcomes} (hb : outcomes.first = true)
    (h3 : Succeeds outcomes' 3) : ∃ dump : List Int,
      graphBellmanFord g 0 hasNegCycle outcomes = some (0, false, dump) ∧
      ∀ (t : g.Node) (level : Int8), ∃ level' visited',
        graphNodeLevel g visited t.val level outcomes' = some (0, level', visited') ∧
        dump[t.val]? = some (if level' = -1 then intMax else level'.toInt) := by
  obtain ⟨dist, found, -, hrun, hd, hs, hcase, hfound⟩ :=
    graphBellmanFord_run g ⟨0, h0⟩ hasNegCycle hb
  have hclosed : Closed g dist := by
    by_contra hopen
    obtain ⟨x, c, hc⟩ := exists_negCycle hd (hcase.resolve_left hopen) hopen
    have hneg := hc.neg
    rw [hp.weight_walk hc.closed] at hneg
    omega
  obtain rfl := hfound.mpr hclosed
  refine ⟨_, hrun, fun t level => ?_⟩
  obtain ⟨level', visited', hlevelRun, hlevel⟩ := graphNodeLevel_correct g h0 visited t.val level h3
  refine ⟨level', visited', hlevelRun, ?_⟩
  rw [← hp.dist_eq hd (relaxations_lt g) hs hclosed hlevel]
  simp

/-- Four nodes with an edge from the first to the second. -/
def arrow : GraphT := (graphAddDirectedEdge ⟨4, by decide, fun _ _ => 0⟩ 0 1).2

theorem plain_arrow : Plain arrow :=
  have hnew : graphCreate 4 (fun _ => true) = some ⟨4, by decide, fun _ _ => 0⟩ := rfl
  .directed (.create hnew) 0 1

theorem plain_levels_arrow : Plain arrow ∧ ∃ dump : List Int,
    graphBellmanFord arrow 0 false (fun _ => true) = some (0, false, dump) ∧
    ∀ (t : arrow.Node) (level : Int8), ∃ level' visited',
      graphNodeLevel arrow (reset arrow) t.val level (fun _ => true) = some (0, level', visited') ∧
      dump[t.val]? = some (if level' = -1 then intMax else level'.toInt) :=
  ⟨plain_arrow, plain_levels arrow plain_arrow (by decide) (reset arrow) false rfl fun _ _ => rfl⟩

/-! ### When there are too many cycles -/

theorem length_pathsOver_concat (done : List g.Node) (i : g.Node) :
    (pathsOver g src len visited curr (done ++ [i])).length =
      (pathsOver g src len visited curr done).length +
        if mark visited curr i = false ∧ g.mat curr i ≠ 0 then
          (cyclePaths g src len (mark visited curr) i).length else 0 := by
  rw [pathsOver_append, List.length_append, length_pathsOver_singleton]

/-- **`__graph_nlength_cycles`** counts the paths as long as the number is an `int`. -/
theorem nlengthCyclesHelper_eq (src : g.Node) (len : Nat) (hlen : len < rounds)
    (hv : visited curr = false) {cyclesNo : Int} (h0 : 0 ≤ cyclesNo) (hmax : cyclesNo ≤ intMax) :
    graphNlengthCyclesHelper g src rounds visited curr len cyclesNo =
      if cyclesNo + (cyclePaths g src len visited curr).length ≤ intMax then
        some (cyclesNo + (cyclePaths g src len visited curr).length, visited) else none := by
  by_cases hfit : cyclesNo + (cyclePaths g src len visited curr).length ≤ intMax
  · rw [if_pos hfit]
    exact nlengthCyclesHelper_spec src len hlen hv h0 hfit
  rw [if_neg hfit]
  induction len generalizing rounds visited curr cyclesNo with
  | zero =>
    obtain ⟨rounds, rfl⟩ := Nat.exists_eq_succ_of_ne_zero (Nat.ne_of_gt hlen)
    rw [cyclePaths] at hfit
    by_cases he : Edge g curr src
    · rw [if_pos he] at hfit
      have hnone : toInt (cyclesNo + 1) = none := if_neg fun h => hfit h.2
      have hne : g.mat curr src ≠ 0 := he
      rw [graphNlengthCyclesHelper]
      simp only [Nat.cast_zero, if_true, if_pos hne, hnone]
      rfl
    · rw [if_neg he, List.length_nil] at hfit
      exact absurd (by omega) hfit
  | succ len ih =>
    obtain ⟨rounds, rfl⟩ := Nat.exists_eq_succ_of_ne_zero (Nat.ne_of_gt (Nat.zero_lt_of_lt hlen))
    have hfinish : ((len + 1 : Nat) : Int) ≠ 0 := by omega
    have hpred : ((len + 1 : Nat) : Int) - 1 = len := by omega
    have hlen' := Nat.lt_of_succ_lt_succ hlen
    have hloop := bounded_spec (l := List.finRange g.nodes) (b := intMax)
      (f := fun (acc : Int × Marks g) i => if acc.2 i = false ∧ g.mat curr i ≠ 0 then
        graphNlengthCyclesHelper g src rounds acc.2 i len acc.1 else some acc)
      (fun done => cyclesNo + ((pathsOver g src len visited curr done).length : Int))
      (fun _ => mark visited curr) (by simpa [pathsOver, fresh] using hmax)
      (by
        intro done i todo _
        rw [length_pathsOver_concat]
        omega)
      (by
        intro done i todo _ hb
        rw [length_pathsOver_concat]
        dsimp only at hb ⊢
        by_cases hc : mark visited curr i = false ∧ g.mat curr i ≠ 0
        · rw [if_pos hc, if_pos hc, Nat.cast_add, ← Int.add_assoc]
          by_cases hfit' : cyclesNo + ((pathsOver g src len visited curr done).length : Int) +
              (cyclePaths g src len (mark visited curr) i).length ≤ intMax
          · rw [if_pos hfit']
            exact nlengthCyclesHelper_spec src len hlen' hc.1 (by omega) hfit'
          · rw [if_neg hfit']
            exact ih hlen' hc.1 (by omega) hb hfit'
        · rw [if_neg hc, if_neg hc, Nat.add_zero, if_pos hb])
    have htotal : cyclePaths g src (len + 1) visited curr =
        pathsOver g src len visited curr (List.finRange g.nodes) := rfl
    rw [htotal] at hfit
    rw [if_neg hfit] at hloop
    have hempty : ((pathsOver g src len visited curr []).length : Int) = 0 := rfl
    rw [hempty, Int.add_zero] at hloop
    rw [graphNlengthCyclesHelper]
    simp only [if_neg hfinish, hpred]
    rw [hloop]
    rfl

/-- The number of paths from the nodes `done`. -/
def startPaths (g : GraphT) (n : Nat) (done : List g.Node) : Int :=
  ((done.flatMap (fun i => cyclePaths g i (n - 1) (before i) i)).length : Int)

theorem startPaths_concat (done : List g.Node) (i : g.Node) : startPaths g n (done ++ [i]) =
    startPaths g n done + (cyclePaths g i (n - 1) (before i) i).length := by
  rw [startPaths, List.flatMap_append, List.flatMap_singleton, List.length_append, Nat.cast_add]
  rfl

/-- **`graph_nlength_cycles`** counts the cycles exactly when twice their number is an `int`. -/
theorem graphNlengthCycles_eq (g : GraphT) (hu : Undirected g) (n : Nat) (hn : 3 ≤ n) :
    graphNlengthCycles g n =
      if 2 * ((simpleCycles (Edge g) n).ncard : Int) ≤ intMax then
        some ((simpleCycles (Edge g) n).ncard : Int) else none := by
  have hcount := two_mul_ncard hu hn (cycleLists g n) nodup_cycleLists fun l => mem_cycleLists hn
  have hpred : (n : Int) - 1 = ((n - 1 : Nat) : Int) := by omega
  have hloop := bounded_spec (l := starts g n) (b := intMax)
    (f := fun (acc : Int × Marks g) i =>
      (graphNlengthCyclesHelper g i g.nodes acc.2 i ((n : Int) - 1) acc.1).bind
        fun r => some (r.1, mark r.2 i))
    (startPaths g n) (fun done v => decide (v ∈ done)) (show (0 : Int) ≤ intMax by decide)
    (by
      intro done i todo _
      rw [startPaths_concat]
      omega)
    (by
      intro done i todo hl hb
      have hmarks : (fun v => decide (v ∈ done)) = before i := by
        funext v
        exact decide_eq_decide.mpr (mem_iff_lt_of_starts hl)
      have hmarks' : mark (before i) i = fun v => decide (v ∈ done ++ [i]) := by
        funext v
        rw [Bool.eq_iff_iff, mark_eq_true, before_eq_true, decide_eq_true_iff, List.mem_append,
          List.mem_singleton, mem_iff_lt_of_starts hl, or_comm]
      have hi : i ∈ starts g n := by
        rw [hl]
        exact List.mem_append_right done List.mem_cons_self
      rw [starts, List.mem_filter, decide_eq_true_iff] at hi
      have hself : before i i = false := decide_eq_false (lt_irrefl i)
      have h0 : 0 ≤ startPaths g n done := Int.natCast_nonneg _
      have hrun := nlengthCyclesHelper_eq i (n - 1) (show n - 1 < g.nodes by omega) hself h0 hb
      dsimp only
      rw [hmarks, hpred, hrun, startPaths_concat, ← hmarks']
      split
      · rfl
      · rfl)
  have htotal : startPaths g n (starts g n) = 2 * ((simpleCycles (Edge g) n).ncard : Int) := by
    rw [startPaths, flatMap_starts, hcount, Nat.cast_mul]
    rfl
  have hstart : (startPaths g n [], fun v => decide (v ∈ ([] : List g.Node))) = ((0 : Int), reset g) := rfl
  rw [htotal, hstart] at hloop
  rw [graphNlengthCycles, if_neg (by omega)]
  refine (congrArg (·.bind (fun acc => some (acc.1 / 2))) hloop).trans ?_
  split
  · refine congrArg some ?_
    dsimp only
    omega
  · rfl

theorem graphNlengthCycles_eq_triangle : Undirected triangle ∧ graphNlengthCycles triangle (3 : Nat) =
    if 2 * ((simpleCycles (Edge triangle) 3).ncard : Int) ≤ intMax then
      some ((simpleCycles (Edge triangle) 3).ncard : Int) else none :=
  have hu : Undirected triangle := by decide
  ⟨hu, graphNlengthCycles_eq triangle hu 3 (by decide)⟩

/-! ### Is there a cycle -/

/-- **`graph_detect_cycle`** finds a cycle exactly when there is a self-loop, or for some length from 3 on
`graph_nlength_cycles` does not come to 0. -/
theorem detectCycle_iff_nlength (g : GraphT) (hu : Undirected g) : ∃ hasCycle visited',
    graphDetectCycle g = some (0, hasCycle, visited') ∧
      (hasCycle = true ↔ (∃ v, Edge g v v) ∨ ∃ n : Nat, 3 ≤ n ∧ graphNlengthCycles g n ≠ some 0) := by
  have hcycles : ∀ n : Nat, 3 ≤ n → (graphNlengthCycles g n ≠ some 0 ↔
      ∃ (v : g.Node) (c : (simple g).Walk v v), c.IsCycle ∧ c.length = n) := by
    intro n hn
    have hcount := two_mul_ncard hu hn (cycleLists g n) nodup_cycleLists fun l => mem_cycleLists hn
    rw [exists_isCycle_iff hn fun u v => simple_adj hu, graphNlengthCycles_eq g hu n hn]
    have hempty : (simpleCycles (Edge g) n).ncard ≠ 0 ↔ ∃ m t, Rooted (Edge g) n m t := by
      have hlen : (simpleCycles (Edge g) n).ncard ≠ 0 ↔ cycleLists g n ≠ [] := by
        rw [← List.length_pos_iff, hcount]
        omega
      rw [hlen]
      refine ⟨fun hne => ?_, ?_⟩
      · obtain ⟨l, hl⟩ := List.exists_mem_of_ne_nil _ hne
        obtain ⟨m, t, -, hr⟩ := (mem_cycleLists hn).mp hl
        exact ⟨m, t, hr⟩
      · rintro ⟨m, t, hr⟩
        exact List.ne_nil_of_mem ((mem_cycleLists hn).mpr ⟨m, t, rfl, hr⟩)
    rw [← hempty]
    split
    · rw [ne_eq, Option.some.injEq, Nat.cast_eq_zero]
    · next hfit =>
      refine iff_of_true (Option.some_ne_none 0).symm ?_
      intro hzero
      rw [hzero] at hfit
      exact hfit (by decide)
  obtain ⟨b, visited', hrun, hquiet⟩ := graphDetectCycle_order g
  refine ⟨b, visited', hrun, fun hb => ?_, fun hcycle => ?_⟩
  · by_contra hno
    rw [not_or, not_exists] at hno
    have hG : (simple g).IsAcyclic := fun v c hc =>
      hno.2 ⟨c.length, hc.three_le_length, (hcycles _ hc.three_le_length).mpr ⟨v, c, hc, rfl⟩⟩
    obtain ⟨visited₂, hrun₂⟩ := graphDetectCycle_forest hu hno.1 hG
    have heq := Option.some.inj (hrun.symm.trans hrun₂)
    exact Bool.noConfusion (hb.symm.trans (congrArg (fun r => r.2.1) heq))
  · by_contra hb
    obtain ⟨O, hall, htied⟩ := hquiet (Bool.not_eq_true _ ▸ hb)
    rcases hcycle with ⟨v, hv⟩ | ⟨n, hn, hne⟩
    · exact not_adj_self_of_allTied htied (hall v) hv
    · obtain ⟨v, c, hc, -⟩ := (hcycles n hn).mp hne
      exact isAcyclic_of_allTied (fun hadj => ((simple_adj hu).mp hadj).2) htied hall c hc

theorem detectCycle_iff_nlength_triangle : Undirected triangle ∧ ∃ hasCycle visited',
    graphDetectCycle triangle = some (0, hasCycle, visited') ∧
      (hasCycle = true ↔ (∃ v, Edge triangle v v) ∨
        ∃ n : Nat, 3 ≤ n ∧ graphNlengthCycles triangle n ≠ some 0) :=
  have hu : Undirected triangle := by decide
  ⟨hu, detectCycle_iff_nlength triangle hu⟩

end DataStructures.Graph
