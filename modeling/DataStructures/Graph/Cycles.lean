import DataStructures.Graph.Marks
import DataStructures.Lib.Forests
import DataStructures.Lib.Loops

/-!
# Undirected graphs, and the search for a cycle in them

`simple g` is the graph without its self-loops.

* `detectCycleHelper_order`: when the search finds nothing, every node that it has marked is tied
  to those that were marked before: it has no self-loop, and a neighbour among them is the one
  that it has been found from.
* `detectCycleHelper_forest`: in a forest the search marks the branch of a node and finds nothing.
* `graphDetectCycle_correct`.
-/

namespace DataStructures.Graph

open Lib Forests

variable {g : GraphT} {s u v : g.Node} {p : Option g.Node} {visited : Marks g}
  {O : List g.Node} {rounds : Nat}

/-- An edge leads back as well. -/
def Undirected (g : GraphT) : Prop := ∀ u v, Edge g u v → Edge g v u

instance : Decidable (Undirected g) :=
  inferInstanceAs (Decidable (∀ u v : Fin g.nodes, Edge g u v → Edge g v u))

theorem Undirected.graphAddUndirectedWedge (hu : Undirected g) (s d : Nat) (w : Int8) :
    Undirected (Graph.graphAddUndirectedWedge g s d w).2 := by
  rw [Graph.graphAddUndirectedWedge]
  split
  · intro u v he
    by_cases h1 : u.val = d ∧ v.val = s
    · have hw : w ≠ 0 := by simpa [Edge, h1] using he
      simp [Edge, h1, hw]
    · by_cases h2 : u.val = s ∧ v.val = d
      · have hw : w ≠ 0 := by simpa [Edge, h1, h2] using he
        simp [Edge, h2, hw]
      · have hg : g.mat u v ≠ 0 := by simpa [Edge, h1, h2] using he
        rw [and_comm] at h1 h2
        simpa [Edge, h1, h2] using hu u v hg
  · exact hu

/-- What `graph_create` and then undirected edges leave. -/
inductive Built : GraphT → Prop
  | create {nodes : Nat} {outcomes : Outcomes} {g : GraphT}
      (call : graphCreate nodes outcomes = some g) : Built g
  | edge {g : GraphT} (prior : Built g) (s d : Nat) (w : Int8) :
      Built (graphAddUndirectedWedge g s d w).2

/-- **A graph of undirected edges** is undirected. -/
theorem Built.undirected (hb : Built g) : Undirected g := by
  induction hb with
  | @create nodes outcomes g call =>
    rw [graphCreate] at call
    split_ifs at call
    obtain rfl := Option.some.inj call
    exact fun u v he => absurd rfl he
  | @edge g prior s d w ih => exact ih.graphAddUndirectedWedge s d w

/-- The graph without its self-loops. -/
def simple (g : GraphT) : SimpleGraph g.Node := SimpleGraph.fromRel (Edge g)

theorem simple_adj (hu : Undirected g) : (simple g).Adj u v ↔ u ≠ v ∧ Edge g u v := by
  rw [simple, SimpleGraph.fromRel_adj, or_iff_left_of_imp (hu v u)]

/-! ### What it means that nothing is found -/

/-- In the loop over the neighbours of `s`, which has been found from the node with the number `c`:
the nodes `O` were marked before, `new` have been since. -/
structure Quiet (g : GraphT) (O : List g.Node) (s : g.Node) (c : Int) (done new : List g.Node)
    (visited : Marks g) : Prop where
  marks : ∀ v, visited v = true ↔ v ∈ O ++ s :: new
  tied : AllTied (Edge g) (O ++ [s]) new
  back : ∀ i ∈ done, Edge g s i → i ∈ O ++ [s] → (i.val : Int) = c

variable {c : Int} {done new new' : List g.Node} {visited' : Marks g} {i : g.Node}

theorem quiet_start (hO : ∀ v, visited v = true ↔ v ∈ O) : Quiet g O s c [] [] (mark visited s) where
  marks v := by rw [mark_eq_true, hO, List.mem_append, List.mem_singleton, or_comm]
  tied := trivial
  back i hi := absurd hi List.not_mem_nil

theorem Quiet.mark_le (h : Quiet g O s c done new visited') (hO : ∀ v, visited v = true ↔ v ∈ O) :
    ∀ v, mark visited s v = true → visited' v = true := by
  intro v hv
  rw [mark_eq_true, hO] at hv
  rw [h.marks, List.mem_append, List.mem_cons]
  exact hv.elim (fun h => Or.inr (Or.inl h)) Or.inl

/-- A neighbour that is passed over. -/
theorem Quiet.pass (h : Quiet g O s c done new visited) (hi : Edge g s i → (i.val : Int) = c) :
    Quiet g O s c (done ++ [i]) new visited := by
  exact ⟨h.marks, h.tied, forall_mem_concat h.back fun hsi _ => hi hsi⟩

/-- A neighbour from which the search has gone on. -/
theorem Quiet.child (h : Quiet g O s c done new visited) (hi : visited i = false)
    (hm : ∀ v, visited' v = true ↔ v ∈ O ++ s :: new ++ i :: new')
    (ht : AllTied (Edge g) (O ++ s :: new) (i :: new')) :
    Quiet g O s c (done ++ [i]) (new ++ i :: new') visited' := by
  have hin : i ∉ O ++ s :: new := by
    rw [← h.marks, hi]
    exact Bool.false_ne_true
  rw [List.append_cons] at hin ht
  refine ⟨fun v => by rw [hm, List.append_assoc]; rfl, allTied_append.mpr ⟨h.tied, ht⟩, ?_⟩
  exact forall_mem_concat h.back fun _ hiO => absurd (List.mem_append_left new hiO) hin

/-- **At the end of the loop.** -/
theorem Quiet.allTied (h : Quiet g O s c (List.finRange g.nodes) new visited)
    (hc : (s.val : Int) ≠ c) : AllTied (Edge g) O (s :: new) := by
  have hval : ∀ i, Edge g s i → i ∈ O ++ [s] → (i.val : Int) = c :=
    fun i => h.back i (List.mem_finRange i)
  refine ⟨⟨fun hss => ?_, fun x hx y hy hsx hsy => ?_⟩, h.tied⟩
  · exact hc (hval s hss (List.mem_append_right O (List.mem_singleton_self s)))
  · have hxy := (hval x hsx (List.mem_append_left _ hx)).trans
      (hval y hsy (List.mem_append_left _ hy)).symm
    exact Fin.ext (Int.ofNat.inj hxy)

/-- **One call**, with all the calls that it makes. -/
theorem detectCycleHelper_order (hO : ∀ v, visited v = true ↔ v ∈ O) (hs : visited s = false)
    (hc : (s.val : Int) ≠ c) (hr : unmarked visited ≤ rounds) :
    ∃ b visited', graphDetectCycleHelper g rounds visited s c = some (b, visited') ∧
      (b = false → ∃ new, (∀ v, visited' v = true ↔ v ∈ O ++ s :: new) ∧
        AllTied (Edge g) O (s :: new)) := by
  induction rounds generalizing visited s c O with
  | zero => exact absurd (Nat.le_zero.mp hr) (unmarked_pos hs).ne'
  | succ rounds ih =>
    have hstep : ∀ done i todo, List.finRange g.nodes = done ++ i :: todo →
        ∀ acc : Bool × Marks g, (acc.1 = false → ∃ new, Quiet g O s c done new acc.2) →
        ∃ acc', (if acc.1 = true then some acc
          else if g.mat s i = 0 then some acc
          else if acc.2 i = false then graphDetectCycleHelper g rounds acc.2 i s.val
          else some (decide ((i.val : Int) ≠ c), acc.2)) = some acc' ∧
          (acc'.1 = false → ∃ new, Quiet g O s c (done ++ [i]) new acc'.2) := by
      rintro done i todo - ⟨b, m⟩ hacc
      cases b with
      | true => exact ⟨(true, m), rfl, fun hf => Bool.noConfusion hf⟩
      | false =>
        obtain ⟨new, hq⟩ := hacc rfl
        dsimp only at hq ⊢
        rw [if_neg Bool.false_ne_true]
        by_cases he : g.mat s i = 0
        · rw [if_pos he]
          exact ⟨(false, m), rfl, fun _ => ⟨new, hq.pass fun hsi => absurd he hsi⟩⟩
        rw [if_neg he]
        by_cases hi : m i = false
        · -- the search goes on from `i`
          have his : (i.val : Int) ≠ s.val := by
            intro heq
            obtain rfl : i = s := Fin.ext (Int.ofNat.inj heq)
            exact Bool.noConfusion (hi.symm.trans (hq.mark_le hO i mark_self))
          obtain ⟨b, m', hrun, hb⟩ := ih hq.marks hi his (unmarked_mark_le hs hr (hq.mark_le hO))
          rw [if_pos hi, hrun]
          refine ⟨(b, m'), rfl, fun hf => ?_⟩
          obtain ⟨new', hm', htied'⟩ := hb hf
          exact ⟨_, hq.child hi hm' htied'⟩
        · rw [if_neg hi]
          exact ⟨_, rfl, fun hf => ⟨new, hq.pass fun _ => not_not.mp (of_decide_eq_false hf)⟩⟩
    obtain ⟨acc, hrun, hacc⟩ := loop_spec (s := (false, mark visited s))
      (fun done acc => acc.1 = false → ∃ new, Quiet g O s c done new acc.2)
      (fun _ => ⟨[], quiet_start hO⟩) hstep
    refine ⟨acc.1, acc.2, hrun, fun hf => ?_⟩
    obtain ⟨new, hq⟩ := hacc hf
    exact ⟨new, hq.marks, hq.allTied hc⟩

/-- **The whole search**: if nothing is found, all nodes are tied to those before them. -/
theorem graphDetectCycle_order (g : GraphT) : ∃ b visited',
    graphDetectCycle g = some (0, b, visited') ∧
      (b = false → ∃ O, (∀ v, v ∈ O) ∧ AllTied (Edge g) [] O) := by
  have hstep : ∀ done i todo, List.finRange g.nodes = done ++ i :: todo →
      ∀ acc : Bool × Marks g, (acc.1 = false → ∃ O, (∀ v, acc.2 v = true ↔ v ∈ O) ∧
        AllTied (Edge g) [] O ∧ ∀ i ∈ done, i ∈ O) →
      ∃ acc', (if acc.1 = true then some acc
        else if acc.2 i = true then some acc
        else graphDetectCycleHelper g g.nodes acc.2 i (-1)) = some acc' ∧
        (acc'.1 = false → ∃ O, (∀ v, acc'.2 v = true ↔ v ∈ O) ∧
          AllTied (Edge g) [] O ∧ ∀ j ∈ done ++ [i], j ∈ O) := by
    rintro done i todo - ⟨b, m⟩ hacc
    cases b with
    | true => exact ⟨(true, m), rfl, fun hf => Bool.noConfusion hf⟩
    | false =>
      obtain ⟨O, hm, htied, hdone⟩ := hacc rfl
      dsimp only at hm ⊢
      rw [if_neg Bool.false_ne_true]
      by_cases hi : m i = true
      · rw [if_pos hi]
        exact ⟨(false, m), rfl, fun _ => ⟨O, hm, htied, forall_mem_concat hdone ((hm i).mp hi)⟩⟩
      · rw [if_neg hi]
        obtain ⟨b, m', hrun, hb⟩ := detectCycleHelper_order hm (Bool.not_eq_true _ ▸ hi)
          (show (i.val : Int) ≠ -1 by omega) (unmarked_le_nodes m)
        refine ⟨(b, m'), hrun, fun hf => ?_⟩
        obtain ⟨new, hm', htied'⟩ := hb hf
        refine ⟨O ++ i :: new, hm', allTied_append.mpr ⟨htied, htied'⟩, ?_⟩
        exact forall_mem_concat (fun j hj => List.mem_append_left _ (hdone j hj))
          (List.mem_append_right O List.mem_cons_self)
  obtain ⟨acc, hrun, hacc⟩ := loop_spec (s := (false, reset g))
    (fun done acc => acc.1 = false → ∃ O, (∀ v, acc.2 v = true ↔ v ∈ O) ∧
      AllTied (Edge g) [] O ∧ ∀ i ∈ done, i ∈ O)
    (fun _ => ⟨[], fun v => iff_of_false Bool.false_ne_true List.not_mem_nil, trivial,
      fun i hi => absurd hi List.not_mem_nil⟩) hstep
  refine ⟨acc.1, acc.2, ?_, fun hf => ?_⟩
  · rw [graphDetectCycle, hrun]
    rfl
  · obtain ⟨O, -, htied, hall⟩ := hacc hf
    exact ⟨O, fun v => hall v (List.mem_finRange v), htied⟩

/-! ### What happens in a forest -/

/-- The number of the node that a node has been found from, as a `char`. -/
def parentChar (p : Option g.Node) : Int := p.elim (-1) (fun v => v.val)

/-- In the loop over the neighbours of `s`: the marks `m` are on the branches that have been gone
through, and the branch of the next neighbour is clear. -/
theorem clear_of_swept {m : Marks g} {done : List g.Node} {i : g.Node} (hG : (simple g).IsAcyclic)
    (h : Clear (simple g) (fun v => visited v = true) p s)
    (hm : ∀ v, m v = true ↔ Swept (simple g) (fun v => visited v = true) p s done v)
    (hi : (simple g).Adj s i) (hip : i ∉ p) (hd : i ∉ done) :
    Clear (simple g) (fun v => m v = true) (some s) i := by
  have hmarks : (fun v => m v = true) = Swept (simple g) (fun v => visited v = true) p s done :=
    funext fun v => propext (hm v)
  rw [hmarks]
  exact h.child hG hi hip hd

theorem mark_le_of_swept {m : Marks g} {done : List g.Node}
    (hm : ∀ v, m v = true ↔ Swept (simple g) (fun v => visited v = true) p s done v) :
    ∀ v, mark visited s v = true → m v = true := by
  intro v hv
  rw [mark_eq_true] at hv
  exact (hm v).mpr (hv.elim (fun h => Or.inr (Or.inl h)) Or.inl)

/-- **One call in a forest**, with all the calls that it makes. -/
theorem detectCycleHelper_forest (hu : Undirected g) (hloop : ∀ v, ¬ Edge g v v)
    (hG : (simple g).IsAcyclic) (h : Clear (simple g) (fun v => visited v = true) p s)
    (hr : unmarked visited ≤ rounds) :
    ∃ visited', graphDetectCycleHelper g rounds visited s (parentChar p) = some (false, visited') ∧
      ∀ v, visited' v = true ↔ visited v = true ∨ Branch (simple g) p s v := by
  have hs : visited s = false := Bool.not_eq_true _ ▸ h.not_marked
  induction rounds generalizing visited s p with
  | zero => exact absurd (Nat.le_zero.mp hr) (unmarked_pos hs).ne'
  | succ rounds ih =>
    have hstep : ∀ done i todo, List.finRange g.nodes = done ++ i :: todo →
        ∀ acc : Bool × Marks g, (acc.1 = false ∧ ∀ v, acc.2 v = true ↔
          Swept (simple g) (fun v => visited v = true) p s done v) →
        ∃ acc', (if acc.1 = true then some acc
          else if g.mat s i = 0 then some acc
          else if acc.2 i = false then graphDetectCycleHelper g rounds acc.2 i s.val
          else some (decide ((i.val : Int) ≠ parentChar p), acc.2)) = some acc' ∧
          acc'.1 = false ∧ ∀ v, acc'.2 v = true ↔
            Swept (simple g) (fun v => visited v = true) p s (done ++ [i]) v := by
      rintro done i todo hl ⟨b, m⟩ ⟨hb, hm⟩
      obtain rfl : b = false := hb
      dsimp only at hm ⊢
      rw [if_neg Bool.false_ne_true]
      have hd : i ∉ done := not_mem_of_finRange hl
      by_cases he : g.mat s i = 0
      · rw [if_pos he]
        refine ⟨(false, m), rfl, rfl, fun v => ?_⟩
        rw [swept_concat_of_not fun hadj => ((simple_adj hu).mp hadj.1).2 he]
        exact hm v
      have hadj : (simple g).Adj s i := by
        refine (simple_adj hu).mpr ⟨?_, he⟩
        rintro rfl
        exact hloop s he
      rw [if_neg he]
      by_cases hip : i ∈ p
      · -- the node that `s` has been found from
        have hi : m i = true := (hm i).mpr (Or.inl (h.parent i hip).2)
        obtain rfl : p = some i := hip
        rw [if_neg fun hf => Bool.noConfusion (hi.symm.trans hf)]
        refine ⟨_, rfl, decide_eq_false (not_not.mpr rfl), fun v => ?_⟩
        rw [swept_concat_of_not fun hadj => hadj.2 rfl]
        exact hm v
      · have hi : m i = false := by
          rw [← Bool.not_eq_true, hm]
          exact h.not_swept hG hadj hip hd
        obtain ⟨m', hrun, hm'⟩ := ih (clear_of_swept hG h hm hadj hip hd)
          (unmarked_mark_le hs hr (mark_le_of_swept hm)) hi
        rw [if_pos hi]
        refine ⟨_, hrun, rfl, fun v => ?_⟩
        rw [swept_concat_of_adj hadj hip, ← hm]
        exact hm' v
    obtain ⟨acc, hrun, hb, hm⟩ := loop_spec (s := (false, mark visited s))
      (fun done acc => acc.1 = false ∧ ∀ v, acc.2 v = true ↔
        Swept (simple g) (fun v => visited v = true) p s done v)
      ⟨rfl, fun v => by rw [swept_nil, mark_eq_true]⟩ hstep
    obtain ⟨b, m⟩ := acc
    obtain rfl : b = false := hb
    exact ⟨m, hrun, fun v => (hm v).trans (h.swept_all hG List.mem_finRange)⟩

/-- **The whole search in a forest.** -/
theorem graphDetectCycle_forest (hu : Undirected g) (hloop : ∀ v, ¬ Edge g v v)
    (hG : (simple g).IsAcyclic) : ∃ visited', graphDetectCycle g = some (0, false, visited') := by
  have hstep : ∀ done i todo, List.finRange g.nodes = done ++ i :: todo →
      ∀ acc : Bool × Marks g, (acc.1 = false ∧ ∀ v, acc.2 v = true ↔
        ∃ j ∈ done, (simple g).Reachable j v) →
      ∃ acc', (if acc.1 = true then some acc
        else if acc.2 i = true then some acc
        else graphDetectCycleHelper g g.nodes acc.2 i (-1)) = some acc' ∧
        acc'.1 = false ∧ ∀ v, acc'.2 v = true ↔ ∃ j ∈ done ++ [i], (simple g).Reachable j v := by
    rintro done i todo - ⟨b, m⟩ ⟨hb, hm⟩
    obtain rfl : b = false := hb
    have hconcat : ∀ v, (∃ j ∈ done ++ [i], (simple g).Reachable j v) ↔
        (∃ j ∈ done, (simple g).Reachable j v) ∨ (simple g).Reachable i v := by
      intro v
      simp only [List.mem_append, List.mem_singleton, or_and_right, exists_or, exists_eq_left]
    dsimp only at hm ⊢
    rw [if_neg Bool.false_ne_true]
    by_cases hi : m i = true
    · obtain ⟨j, hj, hji⟩ := (hm i).mp hi
      rw [if_pos hi]
      refine ⟨(false, m), rfl, rfl, fun v => ?_⟩
      rw [hconcat, or_iff_left_of_imp fun hiv => ⟨j, hj, hji.trans hiv⟩]
      exact hm v
    · have hclear : Clear (simple g) (fun v => m v = true) none i := by
        refine ⟨fun v hv hmv => hi ?_, fun x hx => absurd hx (Option.not_mem_none x)⟩
        obtain ⟨j, hj, hjv⟩ := (hm v).mp hmv
        exact (hm i).mpr ⟨j, hj, hjv.trans hv.reachable.symm⟩
      obtain ⟨m', hrun, hm'⟩ := detectCycleHelper_forest hu hloop hG hclear (unmarked_le_nodes m)
      rw [if_neg hi]
      refine ⟨(false, m'), hrun, rfl, fun v => ?_⟩
      rw [hconcat, ← hm, ← branch_none]
      exact hm' v
  obtain ⟨acc, hrun, hb, -⟩ := loop_spec (s := (false, reset g))
    (fun done acc => acc.1 = false ∧ ∀ v, acc.2 v = true ↔ ∃ j ∈ done, (simple g).Reachable j v)
    ⟨rfl, fun v => iff_of_false Bool.false_ne_true fun ⟨j, hj, _⟩ => List.not_mem_nil hj⟩ hstep
  obtain ⟨b, m⟩ := acc
  obtain rfl : b = false := hb
  refine ⟨m, ?_⟩
  rw [graphDetectCycle, hrun]
  rfl

/-- **`graph_detect_cycle`** finds the self-loops and the simple cycles. -/
theorem graphDetectCycle_correct (g : GraphT) (hu : Undirected g) : ∃ hasCycle visited',
    graphDetectCycle g = some (0, hasCycle, visited') ∧
      (hasCycle = true ↔ (∃ v, Edge g v v) ∨
        ∃ (v : g.Node) (c : (simple g).Walk v v), c.IsCycle ∧ 3 ≤ c.length) := by
  obtain ⟨b, visited', hrun, hquiet⟩ := graphDetectCycle_order g
  refine ⟨b, visited', hrun, fun hb => ?_, fun hcycle => ?_⟩
  · by_contra hno
    rw [not_or, not_exists] at hno
    have hG : (simple g).IsAcyclic := fun v c hc => hno.2 ⟨v, c, hc, hc.three_le_length⟩
    obtain ⟨visited₂, hrun₂⟩ := graphDetectCycle_forest hu hno.1 hG
    have heq := Option.some.inj (hrun.symm.trans hrun₂)
    exact Bool.noConfusion (hb.symm.trans (congrArg (fun r => r.2.1) heq))
  · by_contra hb
    obtain ⟨O, hall, htied⟩ := hquiet (Bool.not_eq_true _ ▸ hb)
    rcases hcycle with ⟨v, hv⟩ | ⟨v, c, hc, -⟩
    · exact not_adj_self_of_allTied htied (hall v) hv
    · exact isAcyclic_of_allTied (fun hadj => ((simple_adj hu).mp hadj).2) htied hall c hc

/-- Three nodes with all the edges between them. -/
def triangle : GraphT := ⟨3, by decide, fun i j => if i = j then 0 else 1⟩

theorem graphDetectCycle_correct_triangle : Undirected triangle ∧ ∃ hasCycle visited',
    graphDetectCycle triangle = some (0, hasCycle, visited') ∧
      (hasCycle = true ↔ (∃ v, Edge triangle v v) ∨
        ∃ (v : triangle.Node) (c : (simple triangle).Walk v v), c.IsCycle ∧ 3 ≤ c.length) :=
  have hu : Undirected triangle := by decide
  ⟨hu, graphDetectCycle_correct triangle hu⟩

end DataStructures.Graph
