import Mathlib.Tactic.Common

/-!
# Arithmetic on `int`

An operation on `int` is defined where its result can be represented in 32 bits.
-/

namespace DataStructures.Lib

/-- `INT_MAX`. -/
def intMax : Int := 2147483647

/-- A result of an operation on `int`. -/
def toInt (x : Int) : Option Int := if -2147483648 ≤ x ∧ x ≤ intMax then some x else none

/-- A result that is not negative. -/
def toIdx (n : Nat) : Option Nat := if n ≤ 2147483647 then some n else none

theorem toInt_of {x : Int} (h : -2147483648 ≤ x ∧ x ≤ intMax) : toInt x = some x := if_pos h

theorem toIdx_of {n : Nat} (h : n ≤ 2147483647) : toIdx n = some n := if_pos h

theorem eq_of_toIdx {n m : Nat} (h : toIdx n = some m) : m = n := by
  rw [toIdx] at h
  split at h
  · exact (Option.some.inj h).symm
  · cases h

end DataStructures.Lib
