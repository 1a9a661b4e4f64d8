import DataStructures.Graph.Bfs
import DataStructures.Lib.Loops

/-!
# Depth-first search

`Explored g visited visited' printed`: a search that found the marks `visited` and left the marks
`visited'` has printed the nodes `printed`, each once, and has marked them and their neighbours.
The recursion ends because a node is marked before the search goes on from it.

* `graphDfsHelper_spec`: one call, with all the calls that it makes.
* `graphDfs_correct`: the nodes printed are those that can be reached, as they are in `graph_bfs`.
-/

namespace DataStructures.Graph

open Lib Walks

variable {g : GraphT} {s u v : g.Node} {visited visited' visited'' : Marks g}
  {printed printed' done : List g.Node} {rounds : Nat}

/-- The nodes printed are those that have been marked, and but for `s` their neighbours are too. -/
structure Explored (g : GraphT) (visited visited' : Marks g) (printed : List g.Node) : Prop where
  marks : ∀ v, visited' v = true ↔ visited v = true ∨ v ∈ printed
  nodup : printed.Nodup
  fresh : ∀ v ∈ printed, visited v = false
  closed : ∀ u ∈ printed, ∀ v, Edge g u v → visited' v = true

/-- In the loop over the neighbours of `s`. -/
structure Exploring (g : GraphT) (visited : Marks g) (s : g.Node) (done : List g.Node)
    (acc : List g.Node × Marks g) : Prop where
  printed : ∃ rest, acc.1 = s :: rest ∧ Explored g (mark visited s) acc.2 rest
  found : Found (Edge g) acc.1
  neighbours : ∀ i ∈ done, Edge g s i → acc.2 i = true

theorem Explored.mono (h : Explored g visited visited' printed) (hv : visited v = true) :
    visited' v = true := (h.marks v).mpr (Or.inl hv)

/-- **One search after the other.** -/
theorem Explored.append (h : Explored g visited visited' printed)
    (h' : Explored g visited' visited'' printed') :
    Explored g visited visited'' (printed ++ printed') where
  marks v := by rw [h'.marks, h.marks, List.mem_append, or_assoc]
  nodup := by
    refine List.nodup_append'.mpr ⟨h.nodup, h'.nodup, fun v hv hv' => ?_⟩
    have hm : visited' v = true := (h.marks v).mpr (Or.inr hv)
    exact Bool.noConfusion (hm.symm.trans (h'.fresh v hv'))
  fresh v hv := by
    rcases List.mem_append.mp hv with hv | hv
    · exact h.fresh v hv
    · have hm := h'.fresh v hv
      rw [← Bool.not_eq_true] at hm ⊢
      exact fun hv => hm (h.mono hv)
  closed u hu v he := by
    rcases List.mem_append.mp hu with hu | hu
    · exact h'.mono (h.closed u hu v he)
    · exact h'.closed u hu v he

/-- **At the end of the loop.** -/
theorem Exploring.explored {acc : List g.Node × Marks g}
    (h : Exploring g visited s (List.finRange g.nodes) acc) (hs : visited s = false) :
    ∃ rest, acc.1 = s :: rest ∧ Explored g visited acc.2 (s :: rest) := by
  obtain ⟨rest, hacc, hrest⟩ := h.printed
  refine ⟨rest, hacc, fun v => ?_, ?_, fun v hv => ?_, fun u hu v he => ?_⟩
  · rw [hrest.marks, mark_eq_true, List.mem_cons, or_assoc, or_left_comm]
  · refine List.nodup_cons.mpr ⟨fun hmem => ?_, hrest.nodup⟩
    exact Bool.noConfusion ((hrest.fresh s hmem).symm.trans mark_self)
  · rcases List.mem_cons.mp hv with rfl | hv
    · exact hs
    · have hm := hrest.fresh v hv
      rw [← Bool.not_eq_true] at hm ⊢
      exact fun hv => hm (mark_of_true hv)
  · rcases List.mem_cons.mp hu with rfl | hu
    · exact h.neighbours v (List.mem_finRange v) he
    · exact hrest.closed u hu v he

/-- **`__graph_dfs`**, with all the calls that it makes. -/
theorem graphDfsHelper_spec (hs : visited s = false) (hr : unmarked visited ≤ rounds) :
    ∃ rest visited', graphDfsHelper g rounds visited s = some (s :: rest, visited') ∧
      Explored g visited visited' (s :: rest) ∧ Found (Edge g) (s :: rest) := by
  induction rounds generalizing visited s with
  | zero => exact absurd (Nat.le_zero.mp hr) (unmarked_pos hs).ne'
  | succ rounds ih =>
    have hstart : Exploring g visited s [] ([s], mark visited s) := by
      refine ⟨⟨[], rfl, fun v => ?_, List.nodup_nil, fun v hv => ?_, fun v hv => ?_⟩,
        found_singleton s, fun i hi => absurd hi List.not_mem_nil⟩
      · exact (or_iff_left List.not_mem_nil).symm
      · exact absurd hv List.not_mem_nil
      · exact absurd hv List.not_mem_nil
    obtain ⟨acc, hrun, hacc⟩ := loop_spec (l := List.finRange g.nodes) (Exploring g visited s) hstart
      (f := fun (acc : List g.Node × Marks g) i =>
        if g.mat s i ≠ 0 ∧ acc.2 i = false then
          (graphDfsHelper g rounds acc.2 i).map (fun r => (acc.1 ++ r.1, r.2))
        else some acc) (by
      intro done i todo _ acc hacc
      obtain ⟨rest, hrest, hexp⟩ := hacc.printed
      by_cases hc : g.mat s i ≠ 0 ∧ acc.2 i = false
      · obtain ⟨rest', visited', hrun, hexp', hfound⟩ := ih hc.2
          (unmarked_mark_le hs hr fun v hv => hexp.mono hv)
        refine ⟨(acc.1 ++ i :: rest', visited'), by rw [if_pos hc, hrun]; rfl,
          ⟨rest ++ i :: rest', by rw [hrest]; rfl, hexp.append hexp'⟩, ?_, ?_⟩
        · exact hacc.found.append hfound (hrest ▸ List.mem_cons_self) hc.1
        · exact forall_mem_concat (fun j hj he => hexp'.mono (hacc.neighbours j hj he))
            fun _ => (hexp'.marks i).mpr (Or.inr List.mem_cons_self)
      · refine ⟨acc, if_neg hc, hacc.printed, hacc.found, forall_mem_concat hacc.neighbours fun he => ?_⟩
        by_contra hm
        exact hc ⟨he, Bool.not_eq_true _ ▸ hm⟩)
    obtain ⟨rest, hprinted, hexp⟩ := hacc.explored hs
    have hfound := hacc.found
    rw [hprinted] at hfound
    refine ⟨rest, acc.2, ?_, hexp, hfound⟩
    rw [graphDfsHelper, ← hprinted]
    exact hrun

/-- **`graph_dfs`** prints what can be reached, each node from an earlier one; `graph_bfs` prints
and marks the same nodes. -/
theorem graphDfs_correct (g : GraphT) (s : g.Node) (visited : Marks g) :
    ∃ (rest : List g.Node) (visited' : Marks g),
      graphDfs g visited s.val = some (0, s :: rest, visited') ∧ (s :: rest).Nodup ∧
      (∀ (i : Nat) v, (s :: rest)[i + 1]? = some v →
        ∃ (j : Nat) (u : g.Node), j ≤ i ∧ (s :: rest)[j]? = some u ∧ Edge g u v) ∧
      (∀ v, v ∈ s :: rest ↔ Reachable (Edge g) s v) ∧ (∀ v, visited' v = true ↔ v ∈ s :: rest) ∧
      ∀ outcomes, Succeeds outcomes 3 → ∃ printed,
        graphBfs g visited s.val outcomes = some (0, printed, visited') ∧
          ∀ v, v ∈ printed ↔ v ∈ s :: rest := by
  obtain ⟨rest, visited', hrun, hexp, hfound⟩ := graphDfsHelper_spec
    (show reset g s = false from rfl) (Nat.le_of_eq unmarked_reset)
  have hmarks : ∀ v, visited' v = true ↔ v ∈ s :: rest := fun v =>
    (hexp.marks v).trans (or_iff_right Bool.false_ne_true)
  have hreach : ∀ v, v ∈ s :: rest ↔ Reachable (Edge g) s v := by
    refine fun v => ⟨hfound.reachable, fun hv => ?_⟩
    exact hv.mem_of_closed (P := (· ∈ s :: rest)) List.mem_cons_self fun x y hx he =>
      (hmarks y).mp (hexp.closed x hx y he)
  refine ⟨rest, visited', ?_, hexp.nodup, hfound, hreach, hmarks, fun outcomes h => ?_⟩
  · rw [graphDfs, dif_pos s.isLt, hrun]
    rfl
  · obtain ⟨printed, visited₂, depth, hbfs, -, hmem, -, -, hmarks₂⟩ := graphBfs_correct g s visited h
    have hsame : ∀ v, v ∈ printed ↔ v ∈ s :: rest := fun v => (hmem v).trans (hreach v).symm
    obtain rfl : visited₂ = visited' := by
      funext v
      rw [Bool.eq_iff_iff, hmarks₂, hmarks, hsame]
    exact ⟨printed, hbfs, hsame⟩

end DataStructures.Graph
