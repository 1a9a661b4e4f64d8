import DataStructures.Graph.Model
import Mathlib.Data.Fintype.Card

/-!
# Nodes and marks

`unmarked visited` is the number of nodes without a mark, which bounds the recursions of a
depth-first search: a node is marked before the search goes on from it (`unmarked_mark_lt`), and a
mark is not taken away (`unmarked_le`).  `fresh visited curr is` are the neighbours of `curr` without a
mark.
-/

namespace DataStructures.Graph

variable {g : GraphT} {visited visited' : Marks g} {curr i v : g.Node} {is js : List g.Node}

theorem weight_bounds (u v : g.Node) : -128 ≤ weight g u v ∧ weight g u v ≤ 127 :=
  ⟨Int8.le_toInt _, Int.le_of_lt_add_one (Int8.toInt_lt _)⟩

theorem length_le_nodes {l : List g.Node} (h : l.Nodup) : l.length ≤ g.nodes := by
  have hle := h.length_le_card
  rwa [Fintype.card_fin] at hle

theorem length_lt_of_finRange {done todo : List g.Node}
    (hl : List.finRange g.nodes = done ++ v :: todo) : done.length < g.nodes := by
  have hlen := congrArg List.length hl
  rw [List.length_finRange, List.length_append, List.length_cons] at hlen
  omega

theorem not_mem_of_finRange {done todo : List g.Node}
    (hl : List.finRange g.nodes = done ++ v :: todo) : v ∉ done := by
  have hnd := List.nodup_finRange g.nodes
  rw [hl] at hnd
  exact fun hv => (List.nodup_append'.mp hnd).2.2 hv List.mem_cons_self

theorem mark_eq_true : mark visited i v = true ↔ v = i ∨ visited v = true := by
  rw [mark]
  rcases eq_or_ne v i with rfl | hne
  · rw [Function.update_self]
    exact iff_of_true rfl (Or.inl rfl)
  · rw [Function.update_of_ne hne]
    exact (or_iff_right hne).symm

theorem mark_self : mark visited i i = true := Function.update_self ..

theorem mark_of_true (h : visited v = true) : mark visited i v = true := mark_eq_true.mpr (Or.inr h)

/-- The neighbours that are not marked, among the nodes `is`. -/
def fresh (visited : Marks g) (curr : g.Node) (is : List g.Node) : List g.Node :=
  is.filter (fun i => decide (Edge g curr i ∧ visited i = false))

theorem mem_fresh :
    v ∈ fresh visited curr is ↔ v ∈ is ∧ Edge g curr v ∧ visited v = false := by
  rw [fresh, List.mem_filter, decide_eq_true_iff]

theorem fresh_cons_pos (h : Edge g curr i ∧ visited i = false) :
    fresh visited curr (i :: is) = i :: fresh visited curr is :=
  List.filter_cons_of_pos (decide_eq_true h)

theorem fresh_cons_neg (h : ¬ (Edge g curr i ∧ visited i = false)) :
    fresh visited curr (i :: is) = fresh visited curr is :=
  List.filter_cons_of_neg fun ht => h (of_decide_eq_true ht)

theorem fresh_append : fresh visited curr (is ++ js) = fresh visited curr is ++ fresh visited curr js :=
  List.filter_append ..

theorem fresh_mark (hi : i ∉ is) :
    fresh (mark visited i) curr is = fresh visited curr is := by
  refine List.filter_congr fun v hv => ?_
  have hne : v ≠ i := fun he => hi (he ▸ hv)
  rw [mark, Function.update_of_ne hne]

/-- The number of nodes without a mark. -/
def unmarked (visited : Marks g) : Nat := (Finset.univ.filter (fun v => visited v = false)).card

theorem unmarked_reset : unmarked (reset g) = g.nodes := by
  have hall : (Finset.univ.filter (fun v => reset g v = false)) = Finset.univ :=
    Finset.filter_true_of_mem fun v _ => rfl
  rw [unmarked, hall, Finset.card_univ, Fintype.card_fin]

/-- **More marks**, fewer nodes without. -/
theorem unmarked_le (h : ∀ v, visited v = true → visited' v = true) :
    unmarked visited' ≤ unmarked visited := by
  refine Finset.card_le_card fun v hv => ?_
  rw [Finset.mem_filter] at hv ⊢
  refine ⟨hv.1, ?_⟩
  rw [← Bool.not_eq_true]
  intro hm
  exact Bool.noConfusion (hv.2.symm.trans (h v hm))

theorem unmarked_le_nodes (visited : Marks g) : unmarked visited ≤ g.nodes := by
  rw [← unmarked_reset (g := g)]
  exact unmarked_le fun v hv => Bool.noConfusion hv

theorem unmarked_mark_lt (h : visited i = false) : unmarked (mark visited i) < unmarked visited := by
  refine Finset.card_lt_card ((Finset.ssubset_iff_of_subset fun v hv => ?_).mpr ⟨i, ?_, ?_⟩)
  · rw [Finset.mem_filter] at hv ⊢
    refine ⟨hv.1, ?_⟩
    rw [← Bool.not_eq_true]
    intro hm
    exact Bool.noConfusion (hv.2.symm.trans (mark_of_true hm))
  · exact Finset.mem_filter.mpr ⟨Finset.mem_univ i, h⟩
  · rw [Finset.mem_filter, mark_self]
    exact fun hm => Bool.noConfusion hm.2

/-- A search with `rounds` recursions left may go on from a node without a mark. -/
theorem unmarked_mark_le {rounds : Nat} (h : visited i = false) (hr : unmarked visited ≤ rounds + 1)
    (hle : ∀ v, mark visited i v = true → visited' v = true) : unmarked visited' ≤ rounds := by
  have h1 := unmarked_mark_lt h
  have h2 := unmarked_le hle
  omega

theorem unmarked_pos (h : visited i = false) : 0 < unmarked visited :=
  Nat.zero_lt_of_lt (unmarked_mark_lt h)

end DataStructures.Graph
