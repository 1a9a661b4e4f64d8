import DataStructures.Graph.Cycles

/-!
# The longest path in a tree

`pathWeight q` adds up the weights along a walk.  `lengths g p s` are the weights of the paths from
`s` past `p`.  A call of the recursion goes over the branch of a node once, along the paths, so that
what it leaves is the greatest of what it found and of the lengths of these paths
(`maxLengthHelper_spec`).

`graphMaxLength_correct`: the maximum over all paths.
-/

namespace DataStructures.Graph

open Lib Forests

variable {g : GraphT} {s i v : g.Node} {p : Option g.Node} {visited : Marks g} {rounds : Nat}
  {a m m' currLen : Int} {S T : Set Int}

/-- The weight of a walk. -/
def pathWeight {u v : g.Node} (q : (simple g).Walk u v) : Int :=
  (q.darts.map (fun d => weight g d.fst d.snd)).sum

/-- The weights of the paths from `s` past `p`. -/
def lengths (g : GraphT) (p : Option g.Node) (s : g.Node) : Set Int :=
  {d | ∃ (v : g.Node) (q : (simple g).Walk s v), q.IsPath ∧ (∀ x ∈ p, x ∉ q.support) ∧ pathWeight q = d}

/-- The weights of the paths over the neighbours `done`, added to `currLen`. -/
def lengthsOver (g : GraphT) (p : Option g.Node) (s : g.Node) (currLen : Int) (done : List g.Node) :
    Set Int :=
  {d | ∃ i ∈ done, (simple g).Adj s i ∧ i ∉ p ∧ d ∈ (currLen + weight g s i + ·) '' lengths g (some s) i}

theorem pathWeight_cons {u x v : g.Node} (h : (simple g).Adj u x) (q : (simple g).Walk x v) :
    pathWeight (.cons h q) = weight g u x + pathWeight q := by
  rw [pathWeight, SimpleGraph.Walk.darts_cons, List.map_cons, List.sum_cons]
  rfl

/-- **The paths from a node** are the empty one and those over its neighbours. -/
theorem lengths_eq (hG : (simple g).IsAcyclic) (hp : ∀ x ∈ p, (simple g).Adj s x) (currLen : Int) :
    (currLen + ·) '' lengths g p s =
      insert currLen (lengthsOver g p s currLen (List.finRange g.nodes)) := by
  ext d
  refine ⟨?_, ?_⟩
  · rintro ⟨_, ⟨v, q, hq, hpast, rfl⟩, rfl⟩
    cases q with
    | nil => exact Or.inl (Int.add_zero currLen)
    | @cons _ i _ h q =>
      obtain ⟨hq', hs⟩ := (SimpleGraph.Walk.cons_isPath_iff h q).mp hq
      refine Or.inr ⟨i, List.mem_finRange i, h, fun hi => ?_, pathWeight q, ⟨v, q, hq', ?_, rfl⟩, ?_⟩
      · exact hpast i hi (List.mem_cons_of_mem s q.start_mem_support)
      · intro x hx
        obtain rfl := Option.some.inj hx
        exact hs
      · dsimp only
        rw [pathWeight_cons, Int.add_assoc]
  · rintro (rfl | ⟨i, -, hi, hip, _, ⟨v, q, hq, hs, rfl⟩, rfl⟩)
    · refine ⟨0, ⟨s, .nil, .nil, fun x hx hmem => ?_, rfl⟩, Int.add_zero _⟩
      obtain rfl : x = s := by simpa using hmem
      exact (hp x hx).ne rfl
    · have hpath : (SimpleGraph.Walk.cons hi q).IsPath := hq.cons (hs s rfl)
      refine ⟨_, ⟨v, _, hpath, not_mem_support_of_cons hG hp hi hip hpath, rfl⟩, ?_⟩
      dsimp only
      rw [pathWeight_cons, Int.add_assoc]

/-! ### The maximum -/

theorem isGreatest_trans (h : IsGreatest (insert a S) m) (h' : IsGreatest (insert m T) m') :
    IsGreatest (insert a (S ∪ T)) m' := by
  have hm : m ≤ m' := h'.2 (Set.mem_insert m T)
  refine ⟨?_, fun d hd => ?_⟩
  · rcases h'.1 with rfl | hT
    · exact h.1.imp_right Or.inl
    · exact Or.inr (Or.inr hT)
  · rcases hd with rfl | hS | hT
    · exact Int.le_trans (h.2 (Set.mem_insert d S)) hm
    · exact Int.le_trans (h.2 (Set.mem_insert_of_mem a hS)) hm
    · exact h'.2 (Set.mem_insert_of_mem m hT)

theorem isGreatest_start (maxLen currLen : Int) :
    IsGreatest (insert maxLen {currLen}) (if currLen > maxLen then currLen else maxLen) := by
  split
  next h =>
    refine ⟨Or.inr rfl, ?_⟩
    rintro d (rfl | rfl)
    · exact Int.le_of_lt h
    · exact Int.le_refl _
  next h =>
    refine ⟨Or.inl rfl, ?_⟩
    rintro d (rfl | rfl)
    · exact Int.le_refl _
    · exact Int.not_lt.mp h

theorem lengthsOver_concat_of_adj {done : List g.Node} (hi : (simple g).Adj s i) (hip : i ∉ p) :
    lengthsOver g p s currLen (done ++ [i]) =
      lengthsOver g p s currLen done ∪ (currLen + weight g s i + ·) '' lengths g (some s) i := by
  ext d
  simp only [lengthsOver, List.mem_append, List.mem_singleton, or_and_right, exists_or, exists_eq_left,
    hi, hip, not_false_eq_true, true_and, Set.mem_ofPred_eq, Set.mem_union]

theorem lengthsOver_concat_of_not {done : List g.Node} (h : ¬ ((simple g).Adj s i ∧ i ∉ p)) :
    lengthsOver g p s currLen (done ++ [i]) = lengthsOver g p s currLen done := by
  ext d
  simp only [lengthsOver, List.mem_append, List.mem_singleton, or_and_right, exists_or, exists_eq_left,
    Set.mem_ofPred_eq]
  exact or_iff_left fun ⟨hi, hip, _⟩ => h ⟨hi, hip⟩

/-- In the loop over the neighbours of `s`, which began with the marks `visited` and the maximum
`maxLen`. -/
structure Measured (g : GraphT) (visited : Marks g) (p : Option g.Node) (s : g.Node)
    (currLen maxLen : Int) (done : List g.Node) (acc : Int × Marks g) : Prop where
  marks : ∀ v, acc.2 v = true ↔ Swept (simple g) (fun v => visited v = true) p s done v
  greatest : IsGreatest (insert maxLen (insert currLen (lengthsOver g p s currLen done))) acc.1

theorem measured_start (visited : Marks g) (p : Option g.Node) (s : g.Node) (currLen maxLen : Int) :
    Measured g visited p s currLen maxLen []
      (if currLen > maxLen then currLen else maxLen, mark visited s) := by
  refine ⟨fun v => by rw [swept_nil, mark_eq_true], ?_⟩
  have hnil : lengthsOver g p s currLen [] = ∅ := by simp [lengthsOver]
  rw [hnil, insert_empty_eq]
  exact isGreatest_start maxLen currLen

section Measured

variable {maxLen : Int} {done : List g.Node} {acc acc' : Int × Marks g}

/-- A node that is passed over. -/
theorem Measured.pass (h : Measured g visited p s currLen maxLen done acc)
    (hi : ¬ ((simple g).Adj s i ∧ i ∉ p)) :
    Measured g visited p s currLen maxLen (done ++ [i]) acc := by
  refine ⟨fun v => ?_, ?_⟩
  · rw [swept_concat_of_not hi]
    exact h.marks v
  · rw [lengthsOver_concat_of_not hi]
    exact h.greatest

/-- A neighbour from which the search has gone on. -/
theorem Measured.child (h : Measured g visited p s currLen maxLen done acc)
    (hi : (simple g).Adj s i) (hip : i ∉ p)
    (hm : ∀ v, acc'.2 v = true ↔ acc.2 v = true ∨ Branch (simple g) (some s) i v)
    (hmax : IsGreatest (insert acc.1 ((currLen + weight g s i + ·) '' lengths g (some s) i)) acc'.1) :
    Measured g visited p s currLen maxLen (done ++ [i]) acc' := by
  refine ⟨fun v => ?_, ?_⟩
  · rw [swept_concat_of_adj hi hip, ← h.marks]
    exact hm v
  · rw [lengthsOver_concat_of_adj hi hip, ← Set.insert_union]
    exact isGreatest_trans h.greatest hmax

/-- The search goes on from a node exactly if that is a neighbour it has not come from. -/
theorem Measured.goes_on (h : Measured g visited p s currLen maxLen done acc) (hu : Undirected g)
    (hG : (simple g).IsAcyclic) (hc : Clear (simple g) (fun v => visited v = true) p s)
    (hd : i ∉ done) : (g.mat s i ≠ 0 ∧ acc.2 i = false) ↔ (simple g).Adj s i ∧ i ∉ p := by
  refine ⟨fun hi => ?_, fun ⟨hadj, hip⟩ => ⟨((simple_adj hu).mp hadj).2, ?_⟩⟩
  · have hnot : ¬ Swept (simple g) (fun v => visited v = true) p s done i := by
      rw [← h.marks, hi.2]
      exact Bool.false_ne_true
    exact ⟨(simple_adj hu).mpr ⟨fun his => hnot (Or.inr (Or.inl his.symm)), hi.1⟩,
      fun hip => hnot (Or.inl (hc.parent i hip).2)⟩
  · rw [← Bool.not_eq_true, h.marks]
    exact hc.not_swept hG hadj hip hd

end Measured

/-- **One call in a forest**, with all the calls that it makes. -/
theorem maxLengthHelper_spec (currLen maxLen : Int) (hu : Undirected g) (hG : (simple g).IsAcyclic)
    (h : Clear (simple g) (fun v => visited v = true) p s) (hr : unmarked visited ≤ rounds)
    (hlo : -2 ^ 20 + 128 * (rounds : Int) ≤ currLen) (hhi : currLen + 128 * (rounds : Int) ≤ 2 ^ 20) :
    ∃ m visited', graphMaxLengthHelper g rounds visited s currLen maxLen = some (m, visited') ∧
      (∀ v, visited' v = true ↔ visited v = true ∨ Branch (simple g) p s v) ∧
      IsGreatest (insert maxLen ((currLen + ·) '' lengths g p s)) m := by
  have hs : visited s = false := Bool.not_eq_true _ ▸ h.not_marked
  induction rounds generalizing visited s p currLen maxLen with
  | zero => exact absurd (Nat.le_zero.mp hr) (unmarked_pos hs).ne'
  | succ rounds ih =>
    have hstep : ∀ done i todo, List.finRange g.nodes = done ++ i :: todo →
        ∀ acc : Int × Marks g, Measured g visited p s currLen maxLen done acc →
        ∃ acc', (if g.mat s i ≠ 0 ∧ acc.2 i = false then do
            let len ← toInt (currLen + weight g s i)
            graphMaxLengthHelper g rounds acc.2 i len acc.1
          else some acc) = some acc' ∧
          Measured g visited p s currLen maxLen (done ++ [i]) acc' := by
      intro done i todo hl acc hacc
      have hd : i ∉ done := not_mem_of_finRange hl
      have hon := hacc.goes_on hu hG h hd
      by_cases hc : g.mat s i ≠ 0 ∧ acc.2 i = false
      · obtain ⟨hadj, hip⟩ := hon.mp hc
        have hw := weight_bounds s i
        have hlen : toInt (currLen + weight g s i) = some (currLen + weight g s i) := by
          refine toInt_of ?_
          unfold intMax
          omega
        obtain ⟨m', vis', hrun, hm', hmax'⟩ := ih (currLen + weight g s i) acc.1
          (clear_of_swept hG h hacc.marks hadj hip hd)
          (unmarked_mark_le hs hr (mark_le_of_swept hacc.marks)) (by omega) (by omega) hc.2
        rw [if_pos hc, hlen]
        exact ⟨(m', vis'), hrun, hacc.child hadj hip hm' hmax'⟩
      · rw [if_neg hc]
        exact ⟨acc, rfl, hacc.pass (mt hon.mpr hc)⟩
    obtain ⟨⟨m, vis⟩, hrun, hacc⟩ := loop_spec (Measured g visited p s currLen maxLen)
      (measured_start visited p s currLen maxLen) hstep
    refine ⟨m, vis, hrun, fun v => (hacc.marks v).trans (h.swept_all hG List.mem_finRange), ?_⟩
    rw [lengths_eq hG fun x hx => (h.parent x hx).1]
    exact hacc.greatest

/-! ### The whole search -/

/-- The weights of the paths from the nodes `done`. -/
def lengthsFrom (g : GraphT) (done : List g.Node) : Set Int := {d | ∃ i ∈ done, d ∈ lengths g none i}

/-- **`graph_max_length`**: the greatest weight of a path in a tree. -/
theorem graphMaxLength_correct (g : GraphT) (hu : Undirected g) (hT : (simple g).IsTree)
    (visited : Marks g) : ∃ maxLen visited', graphMaxLength g visited = some (0, maxLen, visited') ∧
      IsGreatest {d | ∃ (u v : g.Node) (q : (simple g).Walk u v), q.IsPath ∧ pathWeight q = d}
        maxLen := by
  have hn := g.nodes_le
  have hclear : ∀ i, Clear (simple g) (fun v => reset g v = true) none i := fun i =>
    ⟨fun v _ hv => Bool.noConfusion hv, fun x hx => absurd hx (Option.not_mem_none x)⟩
  have hstep : ∀ done i todo, List.finRange g.nodes = done ++ i :: todo → ∀ acc : Int × Marks g,
      IsGreatest (insert (-1) (lengthsFrom g done)) acc.1 →
      ∃ acc', graphMaxLengthHelper g g.nodes (reset g) i 0 acc.1 = some acc' ∧
        IsGreatest (insert (-1) (lengthsFrom g (done ++ [i]))) acc'.1 := by
    rintro done i todo - ⟨m, vis⟩ hmax
    obtain ⟨m', vis', hrun, -, hmax'⟩ := maxLengthHelper_spec 0 m hu hT.isAcyclic
      (hclear i) (Nat.le_of_eq unmarked_reset) (by omega) (by omega)
    have hconcat : lengthsFrom g (done ++ [i]) = lengthsFrom g done ∪ lengths g none i := by
      ext d
      simp only [lengthsFrom, List.mem_append, List.mem_singleton, or_and_right, exists_or,
        exists_eq_left, Set.mem_ofPred_eq, Set.mem_union]
    simp only [Int.zero_add, Set.image_id'] at hmax'
    refine ⟨(m', vis'), hrun, ?_⟩
    rw [hconcat]
    exact isGreatest_trans hmax hmax'
  obtain ⟨⟨m, vis⟩, hrun, hmem, hmax⟩ := loop_spec (s := (-1, visited))
    (fun done acc => IsGreatest (insert (-1) (lengthsFrom g done)) acc.1)
    (by simp [lengthsFrom]) hstep
  have hall : ∀ d, d ∈ lengthsFrom g (List.finRange g.nodes) ↔
      ∃ (u v : g.Node) (q : (simple g).Walk u v), q.IsPath ∧ pathWeight q = d := by
    intro d
    simp only [lengthsFrom, lengths, List.mem_finRange, true_and, Set.mem_ofPred_eq, Option.mem_def,
      reduceCtorEq, false_implies, implies_true]
  refine ⟨m, vis, ?_, ?_, fun d hd => hmax (Or.inr ((hall d).mpr hd))⟩
  · rw [graphMaxLength, hrun]
    rfl
  · -- the path from a node to itself is heavier than the −1 of the start
    obtain ⟨u⟩ := hT.connected.nonempty
    have h0 : (0 : Int) ≤ m := hmax (Or.inr ((hall 0).mpr ⟨u, u, .nil, .nil, rfl⟩))
    dsimp only at hmem
    rcases hmem with rfl | hmem
    · omega
    · exact (hall m).mp hmem

/-- Two nodes with an edge of negative weight. -/
def pair : GraphT := ⟨2, by decide, fun i j => if i = j then 0 else -3⟩

theorem pair_undirected : Undirected pair := by decide

theorem pair_isTree : (simple pair).IsTree := by
  have hadj : ∀ u v : pair.Node, u ≠ v → Edge pair u v := by decide
  have hne : Nonempty pair.Node := ⟨⟨0, by decide⟩⟩
  refine ⟨⟨fun u v => ?_⟩, SimpleGraph.IsAcyclic.of_card_le_two ?_⟩
  · by_cases huv : u = v
    · rw [huv]
    · exact ((simple_adj pair_undirected).mpr ⟨huv, hadj u v huv⟩).reachable
  · rw [ENat.card_eq_coe_fintype_card, Fintype.card_fin]
    exact Nat.cast_le.mpr (Nat.le_refl 2)

theorem graphMaxLength_correct_pair : ∃ maxLen visited',
    graphMaxLength pair (reset pair) = some (0, maxLen, visited') ∧
      IsGreatest {d | ∃ (u v : pair.Node) (q : (simple pair).Walk u v), q.IsPath ∧ pathWeight q = d}
        maxLen :=
  graphMaxLength_correct pair pair_undirected pair_isTree (reset pair)

end DataStructures.Graph
