import Mathlib.Logic.Function.Basic

/-!
# Outcomes of allocations

Whether a call of `malloc`, `realloc`, `strdup` or of a caller's own allocation
function succeeds is not up to the program.  `Outcomes` is the sequence of what
the calls to come will answer; a function that allocates takes the first one off
and hands the rest on.  `allOk` is the sequence in which all succeed.
-/

namespace DataStructures.Lib

/-- What the allocations to come will answer. -/
abbrev Outcomes := Nat → Bool

namespace Outcomes

/-- The answer to the next allocation. -/
def first (o : Outcomes) : Bool := o 0

/-- The answers after the next one. -/
def rest (o : Outcomes) : Outcomes := fun n => o (n + 1)

/-- An allocation that is made only if `b` holds, and counts as a success if not. -/
def when (o : Outcomes) (b : Bool) : Bool × Outcomes := if b then (o.first, o.rest) else (true, o)

/-- Every allocation succeeds. -/
def allOk : Outcomes := fun _ => true

/-- The answers after the next `n`. -/
def later (o : Outcomes) (n : Nat) : Outcomes := fun i => o (i + n)

/-- The next `n` allocations succeed. -/
def Succeed (o : Outcomes) (n : Nat) : Prop := ∀ i < n, o i = true

@[simp] theorem first_allOk : allOk.first = true := rfl
@[simp] theorem rest_allOk : allOk.rest = allOk := rfl
@[simp] theorem when_allOk (b : Bool) : allOk.when b = (true, allOk) := by cases b <;> rfl

variable {o : Outcomes} {m n : Nat}

@[simp] theorem later_zero (o : Outcomes) : o.later 0 = o := rfl

theorem later_later (o : Outcomes) (m n : Nat) : (o.later m).later n = o.later (m + n) := by
  funext i
  rw [later, later, later, Nat.add_right_comm, Nat.add_assoc]

theorem succeed_zero (o : Outcomes) : o.Succeed 0 := fun _ hi => absurd hi (Nat.not_lt_zero _)

theorem succeed_allOk (n : Nat) : allOk.Succeed n := fun _ _ => rfl

theorem succeed_add : o.Succeed (m + n) ↔ o.Succeed m ∧ (o.later m).Succeed n := by
  constructor
  · intro h
    exact ⟨fun i hi => h i (Nat.lt_add_right n hi), fun i hi => h (i + m) (by omega)⟩
  · rintro ⟨hm, hn⟩ i hi
    by_cases him : i < m
    · exact hm i him
    · have hrest := hn (i - m) (by omega)
      rwa [later, Nat.sub_add_cancel (Nat.le_of_not_lt him)] at hrest

theorem succeed_succ : o.Succeed (n + 1) ↔ o.first = true ∧ o.rest.Succeed n := by
  rw [Nat.add_comm, succeed_add]
  refine and_congr_left' ⟨fun h => h 0 Nat.zero_lt_one, fun h i hi => ?_⟩
  rwa [Nat.lt_one_iff.mp hi]

end Outcomes

end DataStructures.Lib
