import Mathlib.Data.Fintype.Card
import Mathlib.Tactic.Common

/-!
# Walks in a directed graph

The edges are a relation `adj`.  `Walk adj u l v`: from `u` one comes over the vertices `l` to
`v`, which is the last of them; with no vertices it is `u` itself.  `weight w u l` adds up the
weights of the edges.

* `Walk.append`, `Walk.append_iff`, `Walk.concat`: walks one after the other.
* `Walk.cycle_of_not_nodup`: a walk that comes to a vertex again goes round in between.
* `exists_nodup_le`: without negative cycles a walk can be made simple, and not heavier.
* `exists_simple_neg`: a negative closed walk goes over a negative simple cycle.
* `weight_eq_mul`: walks where every edge has the same weight.
-/

namespace DataStructures.Lib.Walks

variable {V : Type}

/-- A walk from a vertex over a list of vertices. -/
def Walk (adj : V → V → Prop) : V → List V → V → Prop
  | u, [], v => u = v
  | u, x :: l, v => adj u x ∧ Walk adj x l v

/-- There is a walk. -/
def Reachable (adj : V → V → Prop) (u v : V) : Prop := ∃ l, Walk adj u l v

/-- The weight of a walk. -/
def weight (w : V → V → Int) : V → List V → Int
  | _, [] => 0
  | u, x :: l => w u x + weight w x l

variable {adj : V → V → Prop} {w : V → V → Int} {s u v x : V} {a b c l : List V}

theorem Walk.append (h : Walk adj u a x) (h' : Walk adj x b v) : Walk adj u (a ++ b) v := by
  induction a generalizing u with
  | nil =>
    obtain rfl : u = x := h
    exact h'
  | cons y a ih => exact ⟨h.1, ih h.2⟩

theorem Walk.append_iff : Walk adj u (a ++ b) v ↔ ∃ x, Walk adj u a x ∧ Walk adj x b v := by
  refine ⟨fun h => ?_, fun ⟨x, ha, hb⟩ => ha.append hb⟩
  induction a generalizing u with
  | nil => exact ⟨u, rfl, h⟩
  | cons y a ih =>
    obtain ⟨x, ha, hb⟩ := ih h.2
    exact ⟨x, ⟨h.1, ha⟩, hb⟩

theorem Walk.single (h : adj u v) : Walk adj u [v] v := ⟨h, rfl⟩

theorem Walk.concat (h : Walk adj u l x) (he : adj x v) : Walk adj u (l ++ [v]) v :=
  h.append (.single he)

/-- The last edge of a walk. -/
theorem Walk.last_edge (h : Walk adj u l v) (hl : l ≠ []) :
    ∃ l' x, l = l' ++ [v] ∧ Walk adj u l' x ∧ adj x v := by
  obtain ⟨l', y, rfl⟩ : ∃ l' y, l = l' ++ [y] := ⟨_, _, (List.dropLast_concat_getLast hl).symm⟩
  obtain ⟨x, hx, hxy, rfl⟩ := append_iff.mp h
  exact ⟨l', x, rfl, hx, hxy⟩

theorem Reachable.refl : Reachable adj u u := ⟨[], rfl⟩

theorem Reachable.tail (h : Reachable adj u x) (he : adj x v) : Reachable adj u v := by
  obtain ⟨l, hl⟩ := h
  exact ⟨_, hl.concat he⟩

/-- A set that has the start and with a vertex its neighbours has all that can be reached. -/
theorem Reachable.mem_of_closed {P : V → Prop} (h : Reachable adj u v) (hu : P u)
    (hstep : ∀ x y, P x → adj x y → P y) : P v := by
  obtain ⟨l, hl⟩ := h
  induction l generalizing u with
  | nil =>
    obtain rfl : u = v := hl
    exact hu
  | cons y l ih => exact ih (hstep u y hu hl.1) hl.2

/-! ### Cycles -/

/-- A walk over a vertex, in two parts. -/
theorem Walk.split_of_mem (h : Walk adj u l v) (hx : x ∈ l) :
    ∃ a b, l = a ++ b ∧ a ≠ [] ∧ Walk adj u a x ∧ Walk adj x b v := by
  obtain ⟨a, b, rfl⟩ := List.append_of_mem hx
  rw [List.append_cons] at h
  obtain ⟨y, ha, hb⟩ := append_iff.mp h
  obtain ⟨z, -, -, rfl⟩ := append_iff.mp ha
  exact ⟨a ++ [x], b, List.append_cons .., List.append_ne_nil_of_right_ne_nil a (List.cons_ne_nil x []),
    ha, hb⟩

/-- **A walk that comes to a vertex again** goes round in between. -/
theorem Walk.cycle_of_not_nodup (h : Walk adj u l v) (hn : ¬ (u :: l).Nodup) :
    ∃ x a b c, l = a ++ b ++ c ∧ b ≠ [] ∧ Walk adj u a x ∧ Walk adj x b x ∧ Walk adj x c v := by
  induction l generalizing u with
  | nil => exact absurd (List.nodup_singleton u) hn
  | cons y l ih =>
    by_cases hu : u ∈ y :: l
    · obtain ⟨b, c, hl, hb, hub, hc⟩ := h.split_of_mem hu
      exact ⟨u, [], b, c, hl, hb, rfl, hub, hc⟩
    · rw [List.nodup_cons, not_and] at hn
      obtain ⟨x, a, b, c, hl, hb, ha, hxb, hc⟩ := ih h.2 (hn hu)
      exact ⟨x, y :: a, b, c, congrArg (y :: ·) hl, hb, ⟨h.1, ha⟩, hxb, hc⟩

/-- A simple walk has fewer edges than there are vertices. -/
theorem length_lt_card [Fintype V] (h : (u :: l).Nodup) : l.length < Fintype.card V :=
  h.length_le_card

/-! ### Weights -/

theorem weight_append (h : Walk adj u a x) : weight w u (a ++ b) = weight w u a + weight w x b := by
  induction a generalizing u with
  | nil =>
    obtain rfl : u = x := h
    exact (Int.zero_add _).symm
  | cons y a ih => rw [List.cons_append, weight, weight, ih h.2, Int.add_assoc]

theorem weight_concat (h : Walk adj u l x) : weight w u (l ++ [v]) = weight w u l + w x v := by
  rw [weight_append h, weight, weight, Int.add_zero]

/-- A closed walk of negative weight that can be reached from `s`. -/
structure NegClosed (adj : V → V → Prop) (w : V → V → Int) (s x : V) (c : List V) : Prop where
  reachable : Reachable adj s x
  closed : Walk adj x c x
  neg : weight w x c < 0

/-- **A closed walk that is not simple** is two shorter ones. -/
theorem Walk.split_closed (h : Walk adj x c x) (hn : ¬ c.Nodup) :
    ∃ y a b, Walk adj y b y ∧ Walk adj x a x ∧ Reachable adj x y ∧ b.length < c.length ∧
      a.length < c.length ∧ weight w x c = weight w x a + weight w y b := by
  obtain ⟨z, c, rfl⟩ := List.exists_cons_of_ne_nil (show c ≠ [] from fun hc => hn (hc ▸ List.nodup_nil))
  obtain ⟨y, a, b, d, rfl, hb, ha, hyb, hd⟩ := h.2.cycle_of_not_nodup hn
  have hpos := List.length_pos_of_ne_nil hb
  refine ⟨y, z :: (a ++ d), b, hyb, ⟨h.1, ha.append hd⟩, ⟨z :: a, h.1, ha⟩, ?_, ?_, ?_⟩
  · simp only [List.length_cons, List.length_append]
    omega
  · simp only [List.length_cons, List.length_append]
    omega
  · simp only [weight, weight_append ha, weight_append (ha.append hyb)]
    omega

/-- **A negative closed walk goes over a negative simple cycle.** -/
theorem exists_simple_neg (h : NegClosed adj w s x c) : ∃ y c', NegClosed adj w s y c' ∧ c'.Nodup := by
  induction hn : c.length using Nat.strongRecOn generalizing x c with
  | ind n ih =>
    by_cases hc : c.Nodup
    · exact ⟨x, c, h, hc⟩
    · obtain ⟨y, a, b, hb, ha, ⟨l, hl⟩, hblen, halen, hw⟩ := h.closed.split_closed (w := w) hc
      obtain ⟨l₀, hl₀⟩ := h.reachable
      have hneg := h.neg
      by_cases hbneg : weight w y b < 0
      · exact ih _ (hn ▸ hblen) ⟨⟨_, hl₀.append hl⟩, hb, hbneg⟩ rfl
      · exact ih _ (hn ▸ halen) ⟨h.reachable, ha, by omega⟩ rfl

/-- **Without negative cycles a walk can be made simple**, and not heavier. -/
theorem exists_nodup_le (hno : ∀ x c, ¬ NegClosed adj w s x c) (h : Walk adj s l v) :
    ∃ l', Walk adj s l' v ∧ weight w s l' ≤ weight w s l ∧ (s :: l').Nodup := by
  induction hn : l.length using Nat.strongRecOn generalizing l with
  | ind n ih =>
    by_cases hl : (s :: l).Nodup
    · exact ⟨l, h, Int.le_refl _, hl⟩
    · obtain ⟨x, a, b, c, rfl, hb, ha, hxb, hc⟩ := h.cycle_of_not_nodup hl
      have hpos := List.length_pos_of_ne_nil hb
      have hlt : (a ++ c).length < n := by
        rw [← hn]
        simp only [List.length_append]
        omega
      obtain ⟨l', hl', hle, hnd⟩ := ih _ hlt (ha.append hc) rfl
      have hbw : 0 ≤ weight w x b := Int.not_lt.mp fun hneg => hno x b ⟨⟨a, ha⟩, hxb, hneg⟩
      refine ⟨l', hl', ?_, hnd⟩
      rw [weight_append ha] at hle
      rw [weight_append (ha.append hxb), weight_append ha]
      omega

/-- **Where every edge has the same weight** a walk weighs that much for each edge. -/
theorem weight_eq_mul {k : Int} (hw : ∀ x y, adj x y → w x y = k) (h : Walk adj u l v) :
    weight w u l = k * l.length := by
  induction l generalizing u with
  | nil => exact (Int.mul_zero k).symm
  | cons x l ih =>
    rw [weight, hw u x h.1, ih h.2, List.length_cons, Int.natCast_add, Int.mul_add, Int.add_comm]
    exact congrArg (k * (l.length : Int) + ·) (Int.mul_one k).symm

/-- **A walk can be made simple.** -/
theorem Walk.exists_nodup (h : Walk adj s l v) : ∃ l', Walk adj s l' v ∧ (s :: l').Nodup := by
  have hzero : ∀ x c, ¬ NegClosed adj (fun _ _ => 0) s x c := by
    intro x c hc
    have hneg := hc.neg
    rw [weight_eq_mul (fun _ _ _ => rfl) hc.closed, Int.zero_mul] at hneg
    exact Int.lt_irrefl 0 hneg
  obtain ⟨l', hl', -, hnd⟩ := exists_nodup_le hzero h
  exact ⟨l', hl', hnd⟩

end DataStructures.Lib.Walks
