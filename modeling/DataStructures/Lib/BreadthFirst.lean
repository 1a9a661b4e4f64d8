import Mathlib.Data.List.Basic
import Mathlib.Tactic.Common

/-!
# Breadth-first traversal

A queue of places, each with a node (`load`) from which places are reached (`next`).
`Visits load next q l`: taking the first place from the queue and putting what it reaches at the
end, until the queue is empty, visits the nodes `l` in this order.

`Visits.places`: the queue and what the visited nodes reach are what is visited, in this order.
`visits_of_binary`: where the `k`-th node of a list reaches the ones at `2k + 1` and `2k + 2`,
the list is visited from its first node on.
-/

namespace DataStructures.Lib.BreadthFirst

variable {P N : Type}

/-- From the queue the nodes are visited in this order. -/
inductive Visits (load : P → Option N) (next : N → List P) : List P → List (P × N) → Prop where
  | done : Visits load next [] []
  | step {p : P} {n : N} {q : List P} {l : List (P × N)} (hn : load p = some n)
      (h : Visits load next (q ++ next n) l) : Visits load next (p :: q) ((p, n) :: l)

variable {load : P → Option N} {next : N → List P} {q : List P} {l : List (P × N)}

/-- The first node that is visited. -/
theorem Visits.cons {m : P × N} (h : Visits load next q (m :: l)) : ∃ q', q = m.1 :: q' ∧
    load m.1 = some m.2 ∧ Visits load next (q' ++ next m.2) l := by
  cases h with
  | step hn h => exact ⟨_, rfl, hn, h⟩

/-- **What is visited** is what is in the queue or reached. -/
theorem Visits.places (h : Visits load next q l) :
    l.map Prod.fst = q ++ l.flatMap (fun n => next n.2) := by
  induction h with
  | done => rfl
  | step hn h ih => rw [List.map_cons, ih, List.flatMap_cons, List.append_assoc, List.cons_append]

theorem Visits.length_eq (h : Visits load next q l) :
    l.length = q.length + (l.flatMap (fun n => next n.2)).length := by
  rw [← List.length_append, ← h.places, List.length_map]

/-- The queue is no longer than what will be visited. -/
theorem Visits.length_le (h : Visits load next q l) : q.length ≤ l.length := by
  rw [h.length_eq]
  exact Nat.le_add_right _ _

/-- The nodes in the queue are visited first, and put what they reach at its end. -/
theorem visits_append (hload : ∀ n ∈ l, load n.1 = some n.2) {rest : List (P × N)}
    (h : Visits load next (l.flatMap (fun n => next n.2)) rest) :
    Visits load next (l.map Prod.fst) (l ++ rest) := by
  have hfront : ∀ q, Visits load next (q ++ l.flatMap (fun n => next n.2)) rest →
      Visits load next (l.map Prod.fst ++ q) (l ++ rest) := by
    clear h
    induction l with
    | nil =>
      intro q h
      rwa [List.flatMap_nil, List.append_nil] at h
    | cons n l ih =>
      intro q h
      rw [List.flatMap_cons, ← List.append_assoc] at h
      have hrest := ih (fun m hm => hload m (List.mem_cons_of_mem _ hm)) _ h
      rw [← List.append_assoc] at hrest
      exact .step (hload n List.mem_cons_self) hrest
  have hall := hfront [] h
  rwa [List.append_nil] at hall

/-- What is in the queue is visited first. -/
theorem Visits.split {q r : List P} (h : Visits load next (q ++ r) l) : ∃ front rest, l = front ++ rest ∧
    front.map Prod.fst = q ∧ (∀ n ∈ front, load n.1 = some n.2) ∧
    Visits load next (r ++ front.flatMap (fun n => next n.2)) rest := by
  induction q generalizing r l with
  | nil => exact ⟨[], l, rfl, rfl, nofun, by rwa [List.flatMap_nil, List.append_nil]⟩
  | cons p q ih =>
    rw [List.cons_append] at h
    cases h with
    | @step _ n _ l hn h =>
      rw [List.append_assoc] at h
      obtain ⟨front, rest, rfl, hfront, hload, hrest⟩ := ih h
      refine ⟨(p, n) :: front, rest, rfl, ?_, ?_, ?_⟩
      · rw [List.map_cons, hfront]
      · exact List.forall_mem_cons.mpr ⟨hn, hload⟩
      · rwa [List.flatMap_cons, ← List.append_assoc]

/-- **A complete binary tree in an array** is visited from the front to the end. -/
theorem visits_of_binary (hload : ∀ n ∈ l, load n.1 = some n.2)
    (hnext : ∀ k n, l[k]? = some n → next n.2 = ((l.drop (2 * k + 1)).take 2).map Prod.fst) (k : Nat) :
    Visits load next (((l.drop k).take (k + 1)).map Prod.fst) (l.drop k) := by
  induction hd : l.length - k generalizing k with
  | zero =>
    rw [List.drop_eq_nil_of_le (by omega)]
    exact .done
  | succ d ih =>
    have hk : k < l.length := by omega
    have hq : (l.drop (k + 1)).take (k + 1 + 1) =
        (l.drop (k + 1)).take k ++ (l.drop (2 * k + 1)).take 2 := by
      have hdrop : (l.drop (k + 1)).drop k = l.drop (2 * k + 1) := by
        rw [List.drop_drop]
        congr 1
        omega
      rw [← hdrop, ← List.take_add]
    have hrest := ih (k + 1) (by omega)
    rw [hq, List.map_append, ← hnext k l[k] (List.getElem?_eq_getElem hk)] at hrest
    rw [List.drop_eq_getElem_cons hk, List.take_succ_cons, List.map_cons]
    exact .step (hload _ (List.getElem_mem hk)) hrest

end DataStructures.Lib.BreadthFirst
