import Mathlib.Data.Finset.Card
import Mathlib.Data.Finset.Range
import Mathlib.Order.Bounds.Defs
import Mathlib.Tactic.Common

/-!
# Sequences that go round

A sequence is `Stepped` if an entry determines the next one.  `OnLoop x k`: the entry at `k` comes
again.  Two pointers go along the sequence, one of them twice as fast.

* `Stepped.exists_meeting`: if two entries are the same, the pointers meet.
* `Stepped.onLoop_iff`: they have met after `m` steps; then the entries that come again are those
  that are the same `m` steps later.
* `exists_repeat`: a sequence of numbers below a bound has two entries that are the same.
-/

namespace DataStructures.Lib.Floyd

variable {A : Type} {x : Nat → A} {i j k m n p : Nat}

/-- An entry determines the next one. -/
def Stepped (x : Nat → A) : Prop := ∀ i j, x i = x j → x (i + 1) = x (j + 1)

/-- The entry comes again. -/
def OnLoop (x : Nat → A) (k : Nat) : Prop := ∃ p, 0 < p ∧ x (k + p) = x k

theorem Stepped.add (h : Stepped x) (hij : x i = x j) (k : Nat) : x (i + k) = x (j + k) := by
  induction k with
  | zero => exact hij
  | succ k ih => exact h _ _ ih

theorem Stepped.add_mul (h : Stepped x) (hp : x (i + p) = x i) (m : Nat) : x (i + m * p) = x i := by
  induction m with
  | zero => rw [Nat.zero_mul, Nat.add_zero]
  | succ m ih =>
    have hm := h.add hp (m * p)
    rw [Nat.succ_mul, Nat.add_comm (m * p), ← Nat.add_assoc, hm, ih]

/-- **The pointers meet** if two entries are the same. -/
theorem Stepped.exists_meeting (h : Stepped x) (hij : i < j) (hx : x i = x j) :
    ∃ k, 0 < k ∧ k ≤ j ∧ x k = x (2 * k) := by
  obtain ⟨p, hp, rfl⟩ : ∃ p, 0 < p ∧ j = i + p := ⟨j - i, by omega, by omega⟩
  -- a multiple of the distance that lies on the loop
  obtain ⟨q, d, hq, hle, hd⟩ : ∃ q d, 0 < q * p ∧ q * p ≤ i + p ∧ q * p = i + d := by
    have hmul : (i / p + 1) * p = p * (i / p) + p := by rw [Nat.succ_mul, Nat.mul_comm]
    have hdiv := Nat.div_add_mod i p
    have hmod := Nat.mod_lt i hp
    exact ⟨i / p + 1, (i / p + 1) * p - i, by omega, by omega, by omega⟩
  have hloop : x ((i + d) + p) = x (i + d) := by
    rw [Nat.add_right_comm]
    exact h.add hx.symm d
  refine ⟨q * p, hq, hle, ?_⟩
  calc x (q * p)
    _ = x (i + d) := by rw [hd]
    _ = x (i + d + q * p) := (h.add_mul hloop q).symm
    _ = x (2 * (q * p)) := by rw [← hd, Nat.two_mul]

/-- **Which entries come again**, once the pointers have met. -/
theorem Stepped.onLoop_iff (h : Stepped x) (hm : 0 < m) (hx : x m = x (2 * m)) :
    OnLoop x k ↔ x (k + m) = x k := by
  refine ⟨?_, fun hk => ⟨m, hm, hk⟩⟩
  rintro ⟨p, hp, hk⟩
  -- go round until the place where they met has been passed
  obtain ⟨d, hd⟩ : ∃ d, k + m * p = m + d := by
    have hle : m ≤ m * p := Nat.le_mul_of_pos_right m hp
    exact ⟨k + m * p - m, by omega⟩
  calc x (k + m)
    _ = x (k + m * p + m) := h.add (h.add_mul hk m).symm m
    _ = x (2 * m + d) := by rw [hd, Nat.add_right_comm, Nat.two_mul]
    _ = x (m + d) := h.add hx.symm d
    _ = x (k + m * p) := by rw [hd]
    _ = x k := h.add_mul hk m

/-- **Numbers below a bound** come again. -/
theorem exists_repeat {y : Nat → Nat} (hy : ∀ k ≤ n, y k < n) : ∃ i j, i < j ∧ j ≤ n ∧ y i = y j := by
  have hmaps : ∀ k ∈ Finset.range (n + 1), y k ∈ Finset.range n := fun k hk =>
    Finset.mem_range.mpr (hy k (Nat.lt_succ_iff.mp (Finset.mem_range.mp hk)))
  obtain ⟨i, hi, j, hj, hij, heq⟩ := Finset.exists_ne_map_eq_of_card_lt_of_maps_to
    (by rw [Finset.card_range, Finset.card_range]; exact Nat.lt_succ_self n) hmaps
  rw [Finset.mem_range] at hi hj
  rcases Nat.lt_or_gt_of_ne hij with hlt | hlt
  · exact ⟨i, j, hlt, by omega, heq⟩
  · exact ⟨j, i, hlt, by omega, heq.symm⟩

end DataStructures.Lib.Floyd
