import DataStructures.Graph.Cycles
import DataStructures.Lib.CountCycles

/-!
# Counting the cycles of a length

`cyclePaths g src len visited curr`: the simple paths of `len` more nodes from `curr`, past the
marked ones, from whose last node an edge leads to `src`.  The recursion counts them and takes its
marks away again (`nlengthCyclesHelper_spec`).

A start node is left marked, so that the paths are the lists that go round a simple cycle from its
least node on (`mem_cycleLists`).  No such list begins at one of the last nodes, which the loop leaves
out (`cyclePaths_eq_nil`).
-/

namespace DataStructures.Graph

open Lib CountCycles

variable {g : GraphT} {src curr : g.Node} {visited : Marks g} {l : List g.Node} {len n rounds : Nat}

/-- The simple paths that close a cycle. -/
def cyclePaths (g : GraphT) (src : g.Node) : Nat → Marks g → g.Node → List (List g.Node)
  | 0, _, curr => if Edge g curr src then [[curr]] else []
  | len + 1, visited, curr =>
      (fresh (mark visited curr) curr (List.finRange g.nodes)).flatMap
        (fun i => (cyclePaths g src len (mark visited curr) i).map (curr :: ·))

theorem mark_eq_false {i v : g.Node} : mark visited i v = false ↔ v ≠ i ∧ visited v = false := by
  rw [← Bool.not_eq_true, mark_eq_true, not_or, Bool.not_eq_true]

/-- **Which paths close a cycle.** -/
theorem mem_cyclePaths : l ∈ cyclePaths g src len visited curr ↔
    ∃ t, l = curr :: t ∧ t.length = len ∧ (curr :: t).Nodup ∧
      List.IsChain (Edge g) (curr :: (t ++ [src])) ∧ ∀ v ∈ t, visited v = false := by
  induction len generalizing visited curr l with
  | zero =>
    rw [cyclePaths]
    by_cases he : Edge g curr src
    · rw [if_pos he, List.mem_singleton]
      refine ⟨?_, ?_⟩
      · rintro rfl
        exact ⟨[], rfl, rfl, List.nodup_singleton curr, List.isChain_pair.mpr he,
          fun v hv => absurd hv List.not_mem_nil⟩
      · rintro ⟨t, rfl, ht, -⟩
        rw [List.length_eq_zero_iff.mp ht]
    · rw [if_neg he]
      refine iff_of_false List.not_mem_nil ?_
      rintro ⟨t, rfl, ht, -, hc, -⟩
      rw [List.length_eq_zero_iff.mp ht] at hc
      exact he (List.isChain_pair.mp hc)
  | succ len ih =>
    rw [cyclePaths, List.mem_flatMap]
    refine ⟨?_, ?_⟩
    · rintro ⟨i, hi, hl⟩
      obtain ⟨l', hl', rfl⟩ := List.mem_map.mp hl
      obtain ⟨-, he, hi⟩ := mem_fresh.mp hi
      obtain ⟨t, rfl, ht, hnd, hc, hv⟩ := ih.mp hl'
      have hall : ∀ v ∈ i :: t, v ≠ curr ∧ visited v = false := by
        intro v hv'
        rcases List.mem_cons.mp hv' with rfl | hv'
        · exact mark_eq_false.mp hi
        · exact mark_eq_false.mp (hv v hv')
      refine ⟨i :: t, rfl, congrArg (· + 1) ht, List.nodup_cons.mpr ⟨fun hm => ?_, hnd⟩,
        List.isChain_cons_cons.mpr ⟨he, hc⟩, fun v hv' => (hall v hv').2⟩
      exact (hall curr hm).1 rfl
    · rintro ⟨t, rfl, ht, hnd, hc, hv⟩
      obtain ⟨i, t, rfl⟩ := List.exists_cons_of_length_eq_add_one ht
      obtain ⟨hcurr, hnd⟩ := List.nodup_cons.mp hnd
      obtain ⟨he, hc⟩ := List.isChain_cons_cons.mp hc
      have hall : ∀ v ∈ i :: t, mark visited curr v = false := by
        intro v hv'
        refine mark_eq_false.mpr ⟨?_, hv v hv'⟩
        rintro rfl
        exact hcurr hv'
      refine ⟨i, mem_fresh.mpr ⟨List.mem_finRange i, he, hall i List.mem_cons_self⟩,
        List.mem_map_of_mem (ih.mpr ⟨t, rfl, Nat.succ.inj ht, hnd, hc, fun v hv' => ?_⟩)⟩
      exact hall v (List.mem_cons_of_mem i hv')

/-- Lists that are found from different nodes are different. -/
theorem nodup_flatMap_of_head {is : List g.Node} {F : g.Node → List (List g.Node)} (his : is.Nodup)
    (hF : ∀ i, (F i).Nodup) (k : Nat) (hhead : ∀ i, ∀ l ∈ F i, l[k]? = some i) :
    (is.flatMap F).Nodup := by
  refine List.nodup_flatMap.mpr ⟨fun i _ => hF i, his.imp fun {i j} hij l hi hj => hij ?_⟩
  exact Option.some.inj ((hhead i l hi).symm.trans (hhead j l hj))

theorem nodup_cyclePaths : (cyclePaths g src len visited curr).Nodup := by
  induction len generalizing visited curr with
  | zero =>
    rw [cyclePaths]
    split
    · exact List.nodup_singleton _
    · exact List.nodup_nil
  | succ len ih =>
    refine nodup_flatMap_of_head ((List.nodup_finRange g.nodes).filter _)
      (fun i => ih.map fun _ _ h => (List.cons.inj h).2) 1 (fun i l hl => ?_)
    obtain ⟨l', hl', rfl⟩ := List.mem_map.mp hl
    obtain ⟨t, rfl, -⟩ := mem_cyclePaths.mp hl'
    rfl

/-! ### The recursion -/

theorem unmark_mark (h : visited curr = false) : unmark (mark visited curr) curr = visited := by
  rw [unmark, mark, Function.update_idem, ← h, Function.update_eq_self]

/-- The paths over the neighbours among the nodes `is`. -/
def pathsOver (g : GraphT) (src : g.Node) (len : Nat) (visited : Marks g) (curr : g.Node)
    (is : List g.Node) : List (List g.Node) :=
  (fresh (mark visited curr) curr is).flatMap
    (fun i => (cyclePaths g src len (mark visited curr) i).map (curr :: ·))

theorem pathsOver_append {is js : List g.Node} : pathsOver g src len visited curr (is ++ js) =
    pathsOver g src len visited curr is ++ pathsOver g src len visited curr js := by
  rw [pathsOver, fresh_append, List.flatMap_append]
  rfl

theorem length_pathsOver_singleton (src : g.Node) (len : Nat) (visited : Marks g) (curr i : g.Node) :
    (pathsOver g src len visited curr [i]).length =
      if mark visited curr i = false ∧ g.mat curr i ≠ 0 then
        (cyclePaths g src len (mark visited curr) i).length else 0 := by
  rw [pathsOver]
  by_cases hc : mark visited curr i = false ∧ g.mat curr i ≠ 0
  · rw [if_pos hc, fresh_cons_pos ⟨hc.2, hc.1⟩, fresh, List.filter_nil, List.flatMap_singleton,
      List.length_map]
  · rw [if_neg hc, fresh_cons_neg fun ht => hc ⟨ht.2, ht.1⟩, fresh, List.filter_nil]
    rfl

/-- **`__graph_nlength_cycles`** counts the paths and leaves the marks as they were. -/
theorem nlengthCyclesHelper_spec (src : g.Node) (len : Nat) (hlen : len < rounds)
    (hv : visited curr = false) {cyclesNo : Int} (h0 : 0 ≤ cyclesNo)
    (hfit : cyclesNo + (cyclePaths g src len visited curr).length ≤ intMax) :
    graphNlengthCyclesHelper g src rounds visited curr len cyclesNo =
      some (cyclesNo + (cyclePaths g src len visited curr).length, visited) := by
  induction len generalizing rounds visited curr cyclesNo with
  | zero =>
    obtain ⟨rounds, rfl⟩ := Nat.exists_eq_succ_of_ne_zero (Nat.ne_of_gt hlen)
    rw [graphNlengthCyclesHelper]
    rw [cyclePaths] at hfit ⊢
    by_cases he : g.mat curr src ≠ 0
    · rw [if_pos (show Edge g curr src from he)] at hfit ⊢
      have hone : toInt (cyclesNo + 1) = some (cyclesNo + 1) := toInt_of ⟨by omega, hfit⟩
      simp only [Nat.cast_zero, if_true, if_pos he, unmark_mark hv, hone]
      rfl
    · rw [if_neg (show ¬ Edge g curr src from he)]
      simp only [Nat.cast_zero, if_true, if_neg he, unmark_mark hv]
      rw [List.length_nil, Nat.cast_zero, Int.add_zero]
      rfl
  | succ len ih =>
    obtain ⟨rounds, rfl⟩ := Nat.exists_eq_succ_of_ne_zero (Nat.ne_of_gt (Nat.zero_lt_of_lt hlen))
    have hfinish : ((len + 1 : Nat) : Int) ≠ 0 := by omega
    have hpred : ((len + 1 : Nat) : Int) - 1 = len := by omega
    have htotal : cyclePaths g src (len + 1) visited curr =
        pathsOver g src len visited curr (List.finRange g.nodes) := rfl
    rw [htotal] at hfit ⊢
    have hstep : ∀ done i todo, List.finRange g.nodes = done ++ i :: todo → ∀ acc : Int × Marks g,
        acc = (cyclesNo + (pathsOver g src len visited curr done).length, mark visited curr) →
        ∃ acc', (if acc.2 i = false ∧ g.mat curr i ≠ 0 then
            graphNlengthCyclesHelper g src rounds acc.2 i len acc.1
          else some acc) = some acc' ∧
          acc' = (cyclesNo + (pathsOver g src len visited curr (done ++ [i])).length,
            mark visited curr) := by
      rintro done i todo hl acc rfl
      have hsplit : (pathsOver g src len visited curr (List.finRange g.nodes)).length =
          (pathsOver g src len visited curr done).length +
            (pathsOver g src len visited curr [i]).length +
            (pathsOver g src len visited curr todo).length := by
        rw [hl, List.append_cons, pathsOver_append, pathsOver_append, List.length_append,
          List.length_append]
      have hone := length_pathsOver_singleton src len visited curr i
      rw [pathsOver_append, List.length_append]
      dsimp only
      by_cases hc : mark visited curr i = false ∧ g.mat curr i ≠ 0
      · rw [if_pos hc] at hone ⊢
        rw [ih (Nat.lt_of_succ_lt_succ hlen) hc.1 (by omega) (by omega), ← hone]
        exact ⟨_, rfl, by rw [Nat.cast_add, Int.add_assoc]⟩
      · rw [if_neg hc] at hone ⊢
        rw [hone, Nat.add_zero]
        exact ⟨_, rfl, rfl⟩
    have hstart : (cyclesNo, mark visited curr) =
        (cyclesNo + ((pathsOver g src len visited curr []).length : Int), mark visited curr) := by
      rw [pathsOver, fresh, List.filter_nil, List.flatMap_nil, List.length_nil, Nat.cast_zero,
        Int.add_zero]
    obtain ⟨acc, hrun, rfl⟩ := loop_spec (l := List.finRange g.nodes) _ hstart hstep
    rw [graphNlengthCyclesHelper]
    simp only [if_neg hfinish, hpred]
    rw [hrun, Option.bind_eq_bind, Option.bind_some]
    dsimp only
    rw [unmark_mark hv]
    rfl

/-! ### All the starts -/

/-- The marks on the nodes before `i`. -/
def before (i : g.Node) : Marks g := fun v => decide (v < i)

theorem before_eq_true {i v : g.Node} : before i v = true ↔ v < i := decide_eq_true_iff

/-- The lists that go round a cycle, from each node. -/
def cycleLists (g : GraphT) (n : Nat) : List (List g.Node) :=
  (List.finRange g.nodes).flatMap (fun i => cyclePaths g i (n - 1) (before i) i)

/-- **The lists go round the simple cycles** from their least node on. -/
theorem mem_cycleLists (hn : 3 ≤ n) :
    l ∈ cycleLists g n ↔ ∃ m t, l = m :: t ∧ Rooted (Edge g) n m t := by
  rw [cycleLists, List.mem_flatMap]
  refine ⟨?_, ?_⟩
  · rintro ⟨m, -, hl⟩
    obtain ⟨t, rfl, ht, hnd, hc, hv⟩ := mem_cyclePaths.mp hl
    refine ⟨m, t, rfl, by omega, hnd, hc, fun v hvt => ?_⟩
    have hle : m ≤ v := not_lt.mp (of_decide_eq_false (hv v hvt))
    refine lt_of_le_of_ne hle ?_
    rintro rfl
    exact (List.nodup_cons.mp hnd).1 hvt
  · rintro ⟨m, t, rfl, hr⟩
    have hlen := hr.length
    refine ⟨m, List.mem_finRange m, mem_cyclePaths.mpr ⟨t, rfl, by omega, hr.nodup, hr.chain, ?_⟩⟩
    exact fun v hv => decide_eq_false (not_lt.mpr (hr.least v hv).le)

theorem nodup_cycleLists : (cycleLists g n).Nodup := by
  refine nodup_flatMap_of_head (List.nodup_finRange g.nodes) (fun i => nodup_cyclePaths) 0
    (fun i l hl => ?_)
  obtain ⟨t, rfl, -⟩ := mem_cyclePaths.mp hl
  rfl

/-- **From one of the last nodes** no list of `n` nodes goes up. -/
theorem cyclePaths_eq_nil {i : g.Node} (hi : ¬ (i.val : Int) < g.nodes - ((n : Int) - 1)) :
    cyclePaths g i (n - 1) (before i) i = [] := by
  refine List.eq_nil_iff_forall_not_mem.mpr fun l hl => ?_
  obtain ⟨t, rfl, ht, hnd, -, hv⟩ := mem_cyclePaths.mp hl
  have hsub : ((i :: t).map Fin.val).toFinset ⊆ Finset.Ico i.val g.nodes := by
    intro k hk
    obtain ⟨v, hvm, rfl⟩ := List.mem_map.mp (List.mem_toFinset.mp hk)
    refine Finset.mem_Ico.mpr ⟨?_, v.isLt⟩
    rcases List.mem_cons.mp hvm with rfl | hvm
    · exact Nat.le_refl _
    · exact not_lt.mp (of_decide_eq_false (hv v hvm))
  have hcard := Finset.card_le_card hsub
  rw [List.toFinset_card_of_nodup (hnd.map Fin.val_injective), List.length_map, List.length_cons, ht,
    Nat.card_Ico] at hcard
  omega

/-- The nodes from which the loop begins a search. -/
def starts (g : GraphT) (n : Nat) : List g.Node :=
  (List.finRange g.nodes).filter (fun i => decide ((i.val : Int) < g.nodes - ((n : Int) - 1)))

theorem flatMap_filter_of_nil {A B : Type} {F : A → List B} {p : A → Bool} {l : List A}
    (h : ∀ x, ¬ p x = true → F x = []) : (l.filter p).flatMap F = l.flatMap F := by
  induction l with
  | nil => rfl
  | cons x l ih =>
    rw [List.flatMap_cons]
    by_cases hx : p x = true
    · rw [List.filter_cons_of_pos hx, List.flatMap_cons, ih]
    · rw [List.filter_cons_of_neg hx, ih, h x hx, List.nil_append]

/-- The lists that the loop counts are all of them. -/
theorem flatMap_starts : (starts g n).flatMap (fun i => cyclePaths g i (n - 1) (before i) i) =
    cycleLists g n :=
  flatMap_filter_of_nil fun _ hi => cyclePaths_eq_nil (mt decide_eq_true hi)

/-- The nodes before a start are the starts before it. -/
theorem mem_iff_lt_of_starts {done todo : List g.Node} {i v : g.Node}
    (hl : starts g n = done ++ i :: todo) : v ∈ done ↔ v < i := by
  have hsorted : (starts g n).Pairwise (· < ·) := (List.pairwise_lt_finRange g.nodes).filter _
  have hi : i ∈ starts g n := by
    rw [hl]
    exact List.mem_append_right done List.mem_cons_self
  rw [hl, List.pairwise_append] at hsorted
  refine ⟨fun hv => hsorted.2.2 v hv i List.mem_cons_self, fun hlt => ?_⟩
  have hv : v ∈ starts g n := by
    rw [starts, List.mem_filter, decide_eq_true_iff] at hi ⊢
    have hlt' : v.val < i.val := hlt
    exact ⟨List.mem_finRange v, by omega⟩
  rw [hl] at hv
  rcases List.mem_append.mp hv with hv | hv
  · exact hv
  · rcases List.mem_cons.mp hv with rfl | hv
    · exact absurd hlt (lt_irrefl v)
    · exact absurd (List.rel_of_pairwise_cons hsorted.2.1 hv) (not_lt.mpr hlt.le)

/-- **`graph_nlength_cycles`** counts the simple cycles of `n` nodes. -/
theorem graphNlengthCycles_correct (g : GraphT) (hu : Undirected g) (n : Nat) (hn : 3 ≤ n)
    (hfit : 2 * ((simpleCycles (Edge g) n).ncard : Int) ≤ intMax) :
    graphNlengthCycles g n = some ((simpleCycles (Edge g) n).ncard : Int) := by
  have hcount := two_mul_ncard hu hn (cycleLists g n) nodup_cycleLists fun l => mem_cycleLists hn
  have hpred : (n : Int) - 1 = ((n - 1 : Nat) : Int) := by omega
  have hstep : ∀ done i todo, starts g n = done ++ i :: todo → ∀ acc : Int × Marks g,
      acc = (((done.flatMap (fun i => cyclePaths g i (n - 1) (before i) i)).length : Int),
        fun v => decide (v ∈ done)) →
      ∃ acc', ((graphNlengthCyclesHelper g i g.nodes acc.2 i ((n : Int) - 1) acc.1).bind
        fun r => some (r.1, mark r.2 i)) = some acc' ∧
        acc' = ((((done ++ [i]).flatMap (fun i => cyclePaths g i (n - 1) (before i) i)).length : Int),
          fun v => decide (v ∈ done ++ [i])) := by
    rintro done i todo hl acc rfl
    have hbefore : (fun v => decide (v ∈ done)) = before i := by
      funext v
      exact decide_eq_decide.mpr (mem_iff_lt_of_starts hl)
    have hi : i ∈ starts g n := by
      rw [hl]
      exact List.mem_append_right done List.mem_cons_self
    rw [starts, List.mem_filter, decide_eq_true_iff] at hi
    have htotal : (cycleLists g n).length =
        (done.flatMap (fun i => cyclePaths g i (n - 1) (before i) i)).length +
          (cyclePaths g i (n - 1) (before i) i).length +
          (todo.flatMap (fun i => cyclePaths g i (n - 1) (before i) i)).length := by
      rw [← flatMap_starts, hl, List.flatMap_append, List.flatMap_cons, List.length_append,
        List.length_append, Nat.add_assoc]
    have hself : before i i = false := decide_eq_false (lt_irrefl i)
    have hrun := nlengthCyclesHelper_spec i (n - 1) (show n - 1 < g.nodes by omega) hself
      (Int.natCast_nonneg (done.flatMap (fun i => cyclePaths g i (n - 1) (before i) i)).length)
      (by omega)
    dsimp only
    rw [hbefore, hpred, hrun]
    refine ⟨_, rfl, Prod.ext ?_ (funext fun v => ?_)⟩
    · rw [List.flatMap_append, List.flatMap_singleton, List.length_append, Nat.cast_add]
    · rw [Bool.eq_iff_iff, mark_eq_true, before_eq_true, decide_eq_true_iff, List.mem_append,
        List.mem_singleton, mem_iff_lt_of_starts hl, or_comm]
  have hstart : ((0 : Int), reset g) =
      (((([] : List g.Node).flatMap (fun i => cyclePaths g i (n - 1) (before i) i)).length : Int),
        fun v => decide (v ∈ ([] : List g.Node))) := rfl
  obtain ⟨acc, hrun, rfl⟩ := loop_spec (l := starts g n) _ hstart hstep
  rw [graphNlengthCycles, if_neg (by omega)]
  refine (congrArg (·.bind (fun acc => some (acc.1 / 2))) hrun).trans ?_
  rw [Option.bind_some, flatMap_starts, hcount]
  refine congrArg some ?_
  rw [Nat.cast_mul]
  omega

theorem triangle_ncard : (simpleCycles (Edge triangle) 3).ncard = 1 := by
  have hu : Undirected triangle := by decide
  have hcount := two_mul_ncard hu (Nat.le_refl 3) (cycleLists triangle 3) nodup_cycleLists
    fun l => mem_cycleLists (Nat.le_refl 3)
  have hlen : (cycleLists triangle 3).length = 2 := by decide
  omega

theorem graphNlengthCycles_correct_triangle :
    2 * ((simpleCycles (Edge triangle) 3).ncard : Int) ≤ intMax ∧
      graphNlengthCycles triangle (3 : Nat) = some ((simpleCycles (Edge triangle) 3).ncard : Int) := by
  have hfit : 2 * ((simpleCycles (Edge triangle) 3).ncard : Int) ≤ intMax := by
    rw [triangle_ncard]
    decide
  exact ⟨hfit, graphNlengthCycles_correct triangle (by decide) 3 (by decide) hfit⟩

end DataStructures.Graph
