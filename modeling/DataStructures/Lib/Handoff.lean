import DataStructures.Lib.Runs
import Mathlib.Algebra.BigOperators.Group.Multiset.Basic

/-!
# Handing entries over

Entries are registered in a queue, a thread takes the whole queue at once, and finishes
what it has taken one entry after the other.  A `Move` is one of these.

Every entry is in one place (`Ledger.Balanced`): it is in the queue, taken by one thread, or
done.  The entries have keys of their own, so no entry is done twice.
-/

namespace DataStructures.Lib.Handoff

open Runs

/-- What has been registered, and where the entries are. -/
structure Ledger (ι E : Type) where
  registered : Multiset E
  done : Multiset E
  queue : List E
  taken : ι → List E

variable {ι E K : Type} {L L' : Ledger ι E} {i j : ι} {e e' : E} {key : E → K}

/-- A ledger without entries. -/
def Ledger.empty : Ledger ι E := ⟨0, 0, [], fun _ => []⟩

/-- A move of thread `i`. -/
inductive Move [DecidableEq ι] (key : E → K) (i : ι) (L : Ledger ι E) : Ledger ι E → Prop
  | keep : Move key i L L
  | register {e : E} : key e ∉ L.registered.map key →
      Move key i L { L with registered := e ::ₘ L.registered, queue := e :: L.queue }
  | take : L.taken i = [] →
      Move key i L { L with queue := [], taken := Function.update L.taken i L.queue }
  | finish {e : E} {rest : List E} : L.taken i = e :: rest →
      Move key i L { L with done := e ::ₘ L.done, taken := Function.update L.taken i rest }

variable [Fintype ι]

/-- Every entry is in one place, and has a key of its own. -/
structure Ledger.Balanced (key : E → K) (L : Ledger ι E) : Prop where
  places : L.registered = L.done + L.queue + ∑ i, (L.taken i : Multiset E)
  nodup : (L.registered.map key).Nodup

theorem balanced_empty : (Ledger.empty : Ledger ι E).Balanced key where
  places := by
    show (0 : Multiset E) = 0 + 0 + ∑ _i : ι, (0 : Multiset E)
    rw [Finset.sum_const_zero, add_zero, add_zero]
  nodup := Multiset.nodup_zero

namespace Ledger.Balanced

/-- **Every move keeps every entry in one place.** -/
theorem move [DecidableEq ι] (h : L.Balanced key) (hm : Move key i L L') : L'.Balanced key := by
  cases hm with
  | keep => exact h
  | @register e hnew =>
    refine ⟨?_, ?_⟩
    · show e ::ₘ L.registered = L.done + ((e :: L.queue : List E) : Multiset E) + _
      rw [h.places, ← Multiset.cons_coe, Multiset.add_cons, Multiset.cons_add]
    · rw [Multiset.map_cons]
      exact Multiset.nodup_cons.mpr ⟨hnew, h.nodup⟩
  | take hnil =>
    refine ⟨?_, h.nodup⟩
    have hsum := sum_update (fun l : List E => (l : Multiset E)) L.taken i L.queue
    rw [hnil, Multiset.coe_nil, add_zero] at hsum
    show L.registered = L.done + ((([] : List E) : Multiset E)) + _
    rw [hsum, h.places, Multiset.coe_nil, add_zero, add_assoc, add_comm (L.queue : Multiset E)]
  | @finish e rest hcons =>
    refine ⟨?_, h.nodup⟩
    have hsum := sum_update (fun l : List E => (l : Multiset E)) L.taken i rest
    rw [hcons, ← Multiset.cons_coe, Multiset.add_cons, ← Multiset.cons_add] at hsum
    show L.registered = e ::ₘ L.done + L.queue + _
    rw [h.places, ← add_right_cancel hsum, Multiset.add_cons, Multiset.cons_add, Multiset.cons_add]

theorem nodup_registered (h : L.Balanced key) : L.registered.Nodup := Multiset.Nodup.of_map key h.nodup

theorem mem_iff (h : L.Balanced key) :
    e ∈ L.registered ↔ e ∈ L.done ∨ e ∈ L.queue ∨ ∃ i, e ∈ L.taken i := by
  rw [h.places, Multiset.mem_add, Multiset.mem_add, Multiset.mem_coe, Multiset.mem_sum, or_assoc]
  simp only [Finset.mem_univ, true_and, Multiset.mem_coe]

/-- **No entry is done twice.** -/
theorem nodup_done (h : L.Balanced key) : L.done.Nodup := by
  have hnodup := h.nodup_registered
  rw [h.places, add_assoc] at hnodup
  exact (Multiset.nodup_add.mp hnodup).1

/-- An entry that is done is neither in the queue nor taken. -/
theorem key_ne_of_done (h : L.Balanced key) (he : e ∈ L.done)
    (he' : e' ∈ L.queue ∨ ∃ i, e' ∈ L.taken i) : key e ≠ key e' := by
  have hnodup := h.nodup
  rw [h.places, add_assoc, Multiset.map_add] at hnodup
  have hdisjoint := (Multiset.nodup_add.mp hnodup).2.2
  intro hkey
  refine Multiset.disjoint_left.mp hdisjoint (Multiset.mem_map_of_mem key he)
    (hkey ▸ Multiset.mem_map_of_mem key ?_)
  rw [Multiset.mem_add, Multiset.mem_coe, Multiset.mem_sum]
  refine he'.imp_right ?_
  rintro ⟨i, hi⟩
  exact ⟨i, Finset.mem_univ i, hi⟩

end Ledger.Balanced

/-! ### Following an entry -/

section Entry

variable [DecidableEq ι]

omit [Fintype ι]

theorem Move.mem_registered (hm : Move key i L L') (he : e ∈ L.registered) :
    e ∈ L'.registered := by
  cases hm with
  | keep | take _ | finish _ => exact he
  | register _ => exact Multiset.mem_cons_of_mem he

theorem Move.mem_done (hm : Move key i L L') (he : e ∈ L.done) : e ∈ L'.done := by
  cases hm with
  | keep | register _ | take _ => exact he
  | finish _ => exact Multiset.mem_cons_of_mem he

theorem Move.taken_of_ne (hm : Move key i L L') (hj : j ≠ i) : L'.taken j = L.taken j := by
  cases hm with
  | keep | register _ => rfl
  | take _ | finish _ => exact Function.update_of_ne hj ..

/-- A thread keeps what it has taken until it is done. -/
theorem Move.mem_taken (hm : Move key i L L') (he : e ∈ L.taken j) :
    e ∈ L'.done ∨ e ∈ L'.taken j := by
  obtain rfl | hne := eq_or_ne j i
  swap
  · exact Or.inr ((hm.taken_of_ne hne).symm ▸ he)
  cases hm with
  | keep | register _ => exact Or.inr he
  | take hnil =>
    rw [hnil] at he
    exact absurd he List.not_mem_nil
  | @finish d rest hcons =>
    rw [hcons] at he
    obtain rfl | he := List.mem_cons.mp he
    · exact Or.inl (Multiset.mem_cons_self e L.done)
    · refine Or.inr ?_
      show e ∈ Function.update L.taken j rest j
      rwa [Function.update_self]

end Entry

end DataStructures.Lib.Handoff
