import DataStructures.RingBuffer.Model
import DataStructures.Lib.Refinement

/-!
# The ring buffer is a bounded FIFO

`fifo capacity` is the specification: a list of at most `capacity` values, pushed at the end
and popped at the front.  `Holds capacity r held`: the values of `r`, from `head` on and
around the end of the array, are `held`.

`fifo_refines`: every push and every pop does on the buffer what it does on the list.
`ringBuffer_fifo` says so of whole runs, and where the values lie; `ringBuffer_print`, that what is
printed is what comes out.
-/

namespace DataStructures.RingBuffer

open Lib Refinement

variable {α : Type} {capacity : Nat} {r : RingBufferT α} {held : List α} {x : α}

/-- A call on a ring buffer. -/
inductive Call (α : Type)
  | push (data : α)
  | pop

/-- The call: what it returns, and what it has written to `*data`. -/
def Call.run (capacity : Nat) (r : RingBufferT α) : Call α →
    Option ((Bool × Option α) × RingBufferT α)
  | push data => (ringBufferPush capacity r data).map (fun (ok, r) => ((ok, none), r))
  | pop => ringBufferPop capacity r

/-- A bounded FIFO. -/
def fifo (capacity : Nat) (held : List α) : Call α → (Bool × Option α) × List α
  | .push data =>
      if held.length < capacity then ((true, none), held ++ [data]) else ((false, none), held)
  | .pop =>
      match held with
      | [] => ((false, none), [])
      | x :: held => ((true, some x), held)

/-- **The buffer holds the values `held`**, the oldest first. -/
structure Holds (capacity : Nat) (r : RingBufferT α) (held : List α) : Prop where
  length : r.data.length = capacity
  head : r.head.toNat < capacity
  tail : r.tail.toNat = (r.head.toNat + held.length) % capacity
  size : r.size.toNat = held.length
  size_le : held.length ≤ capacity
  cells : ∀ i < held.length, r.data[(r.head.toNat + i) % capacity]? = held[i]?

/-! ### Cursors -/

/-- A cursor advances around the end of the array. -/
theorem toNat_advance {i : BitVec 32} (hc : capacity < 2 ^ 31) (hi : i.toNat < capacity) :
    ((i + 1) % BitVec.ofNat 32 capacity).toNat = (i.toNat + 1) % capacity := by
  have hadd : (i + 1).toNat = i.toNat + 1 := by
    have h1 : (1 : BitVec 32).toNat = 1 := rfl
    rw [BitVec.toNat_add, h1, Nat.mod_eq_of_lt (by omega)]
  rw [BitVec.toNat_umod, hadd, BitVec.toNat_ofNat, Nat.mod_eq_of_lt (b := 2 ^ 32) (by omega)]

/-- Different places of the buffer are different entries of the array. -/
theorem place_inj {h i j : Nat} (hi : i < capacity) (hj : j < capacity)
    (he : (h + i) % capacity = (h + j) % capacity) : i = j := by
  have hij : i % capacity = j % capacity := Nat.ModEq.add_left_cancel' h he
  rwa [Nat.mod_eq_of_lt hi, Nat.mod_eq_of_lt hj] at hij

theorem place_succ (h i : Nat) : ((h + 1) % capacity + i) % capacity = (h + (i + 1)) % capacity := by
  rw [Nat.mod_add_mod, Nat.add_assoc, Nat.add_comm 1 i]

/-! ### One call -/

theorem holds_init (hpos : 1 ≤ capacity) (zero : α) :
    Holds capacity (ringBufferInit capacity zero) [] where
  length := List.length_replicate
  head := hpos
  tail := (Nat.zero_mod capacity).symm
  size := rfl
  size_le := Nat.zero_le capacity
  cells := fun i hi => absurd hi (Nat.not_lt_zero i)

theorem Holds.isFull_iff (h : Holds capacity r held) (hc : capacity < 2 ^ 31) :
    ringBufferIsFull capacity r = true ↔ held.length = capacity := by
  rw [ringBufferIsFull, beq_iff_eq, ← BitVec.toNat_inj, h.size, BitVec.toNat_ofNat,
    Nat.mod_eq_of_lt (by omega)]

theorem Holds.isEmpty_iff (h : Holds capacity r held) :
    ringBufferIsEmpty r = true ↔ held = [] := by
  rw [ringBufferIsEmpty, beq_iff_eq, ← BitVec.toNat_inj, h.size]
  exact List.length_eq_zero_iff

/-- A full buffer refuses, and stays as it is. -/
theorem Holds.push_full (h : Holds capacity r held) (hc : capacity < 2 ^ 31)
    (hfull : held.length = capacity) (x : α) : ringBufferPush capacity r x = some (false, r) :=
  if_pos ((h.isFull_iff hc).mpr hfull)

/-- **A push puts the value behind the others.** -/
theorem Holds.push (h : Holds capacity r held) (hc : capacity < 2 ^ 31)
    (hlt : held.length < capacity) (x : α) :
    ∃ r', ringBufferPush capacity r x = some (true, r') ∧ Holds capacity r' (held ++ [x]) := by
  have hpos : 0 < capacity := by omega
  have htail : r.tail.toNat < capacity := by
    rw [h.tail]
    exact Nat.mod_lt _ hpos
  have hsize : (r.size + 1).toNat = held.length + 1 := by
    have h1 : (1 : BitVec 32).toNat = 1 := rfl
    rw [BitVec.toNat_add, h1, h.size, Nat.mod_eq_of_lt (by omega)]
  have hfull : ¬ ringBufferIsFull capacity r = true := by
    rw [h.isFull_iff hc]
    omega
  refine ⟨_, (if_neg hfull).trans (if_pos (by rw [h.length]; exact htail)),
    ⟨?_, h.head, ?_, ?_, ?_, ?_⟩⟩
  · exact List.length_set.trans h.length
  · rw [toNat_advance hc htail, h.tail, List.length_append, List.length_singleton,
      Nat.mod_add_mod, Nat.add_assoc]
  · rw [List.length_append, List.length_singleton]
    exact hsize
  · rw [List.length_append, List.length_singleton]
    exact hlt
  · intro i hi
    rw [List.length_append, List.length_singleton] at hi
    by_cases hlast : i = held.length
    · subst hlast
      rw [← h.tail, List.getElem?_set_self (by rw [h.length]; exact htail),
        List.getElem?_concat_length]
    · -- the other values lie at other places
      have hne : r.tail.toNat ≠ (r.head.toNat + i) % capacity := by
        rw [h.tail]
        intro he
        exact hlast (place_inj hlt (by omega) he).symm
      rw [List.getElem?_set_ne hne, List.getElem?_append_left (by omega)]
      exact h.cells i (by omega)

theorem Holds.pop_empty (h : Holds capacity r []) :
    ringBufferPop capacity r = some ((false, none), r) :=
  if_pos (h.isEmpty_iff.mpr rfl)

/-- **A pop takes the oldest value.** -/
theorem Holds.pop (h : Holds capacity r (x :: held)) (hc : capacity < 2 ^ 31) :
    ∃ r', ringBufferPop capacity r = some ((true, some x), r') ∧ Holds capacity r' held := by
  have hle := h.size_le
  rw [List.length_cons] at hle
  have hfirst : r.data[r.head.toNat]? = some x := by
    have h0 := h.cells 0 (Nat.succ_pos _)
    rwa [Nat.add_zero, Nat.mod_eq_of_lt h.head] at h0
  have hsize : (r.size - 1).toNat = held.length := by
    have hs := h.size
    rw [List.length_cons] at hs
    have h1 : (1 : BitVec 32).toNat = 1 := rfl
    rw [BitVec.toNat_sub, h1]
    omega
  have hpop : ringBufferPop capacity r = some ((true, some x), { r with
      head := (r.head + 1) % BitVec.ofNat 32 capacity
      size := r.size - 1 }) := by
    rw [ringBufferPop, if_neg (fun he => List.cons_ne_nil _ _ (h.isEmpty_iff.mp he)), hfirst]
    rfl
  refine ⟨_, hpop, ⟨h.length, ?_, ?_, hsize, by omega, ?_⟩⟩
  · rw [toNat_advance hc h.head]
    exact Nat.mod_lt _ (by omega)
  · have ht := h.tail
    rw [List.length_cons] at ht
    rw [toNat_advance hc h.head, place_succ]
    exact ht
  · intro i hi
    rw [toNat_advance hc h.head, place_succ]
    exact h.cells (i + 1) (Nat.succ_lt_succ hi)

/-- **Every call on the buffer is the call on the FIFO.** -/
theorem fifo_refines (hc : capacity < 2 ^ 31) :
    Refines (Call.run (α := α) capacity) (fifo capacity) (fun _ _ => True) (Holds capacity) where
  step := by
    intro r held call h _
    cases call with
    | push x =>
      by_cases hlt : held.length < capacity
      · obtain ⟨r', hr, h'⟩ := h.push hc hlt x
        rw [fifo, if_pos hlt, Call.run, hr]
        exact ⟨r', rfl, h'⟩
      · have hfull := Nat.le_antisymm h.size_le (Nat.le_of_not_lt hlt)
        rw [fifo, if_neg hlt, Call.run, h.push_full hc hfull]
        exact ⟨r, rfl, h⟩
    | pop =>
      cases held with
      | nil => exact ⟨r, h.pop_empty, h⟩
      | cons x held => exact h.pop hc

/-! ### Runs -/

/-- **The ring buffer refines a bounded FIFO.**  In every run from `ring_buffer_init` the
calls return what the FIFO says; the values held lie at `(head + i) % capacity`, `tail` is
behind them, and a push that is refused changes nothing. -/
theorem ringBuffer_fifo (hpos : 1 ≤ capacity) (hc : capacity < 2 ^ 31) (zero : α)
    (cs : List (Call α)) : ∃ r,
    calls (Call.run capacity) (ringBufferInit capacity zero) cs =
      some ((specCalls (fifo capacity) [] cs).1, r) ∧
    r.size.toNat = (specCalls (fifo capacity) [] cs).2.length ∧
    (∀ i < r.size.toNat, r.data[(r.head.toNat + i) % capacity]? =
      (specCalls (fifo capacity) [] cs).2[i]?) ∧
    r.tail.toNat = (r.head.toNat + r.size.toNat) % capacity ∧
    ∀ x, (specCalls (fifo capacity) [] cs).2.length = capacity →
      ringBufferPush capacity r x = some (false, r) := by
  obtain ⟨r, hr, h⟩ := (fifo_refines hc).calls (holds_init hpos zero)
    (allLegal_of_forall cs (fun _ _ => trivial))
  refine ⟨r, hr, h.size, ?_, ?_, ?_⟩
  · rw [h.size]
    exact h.cells
  · rw [h.size]
    exact h.tail
  · exact fun x hfull => h.push_full hc hfull x

/-- A buffer of capacity 2 refuses a third value and wraps around. -/
theorem ringBuffer_fifo_two : ∃ r,
    calls (Call.run 2) (ringBufferInit 2 0) [.push 5, .push 6, .push 7, .pop, .push 8] =
      some ([(true, none), (true, none), (false, none), (true, some 5), (true, none)], r) ∧
    r.size.toNat = 2 ∧ (∀ i < r.size.toNat, r.data[(r.head.toNat + i) % 2]? = [6, 8][i]?) ∧
    r.tail.toNat = (r.head.toNat + r.size.toNat) % 2 ∧
    ∀ x, [6, 8].length = 2 → ringBufferPush 2 r x = some (false, r) :=
  ringBuffer_fifo (by decide) (by decide) 0 [.push 5, .push 6, .push 7, .pop, .push 8]

/-! ### Printing -/

/-- The index of a value, computed in 32 bits. -/
theorem toNat_place {h i : BitVec 32} (hc : capacity < 2 ^ 31) (hh : h.toNat < capacity)
    (hi : i.toNat < capacity) :
    ((h + i) % BitVec.ofNat 32 capacity).toNat = (h.toNat + i.toNat) % capacity := by
  rw [BitVec.toNat_umod, BitVec.toNat_add, BitVec.toNat_ofNat, Nat.mod_eq_of_lt (b := 2 ^ 32) (by omega),
    Nat.mod_eq_of_lt (b := 2 ^ 32) (by omega)]

/-- **The rounds from the `i`-th on** print the values from there on. -/
theorem Holds.printFrom (h : Holds capacity r held) (hc : capacity < 2 ^ 31) :
    ∀ (n : Nat) (i : BitVec 32), i.toNat + n = held.length → ∃ lines,
      RingBuffer.printFrom capacity r n i = some lines ∧ lines.map Prod.snd = held.drop i.toNat ∧
      ∀ line ∈ lines, line.1.toNat < capacity ∧ r.data[line.1.toNat]? = some line.2 := by
  intro n
  have hle := h.size_le
  induction n with
  | zero =>
    intro i hi
    refine ⟨[], rfl, ?_, fun line hm => absurd hm List.not_mem_nil⟩
    rw [List.drop_of_length_le (Nat.le_of_eq (by omega))]
    rfl
  | succ n ih =>
    intro i hi
    have hlt : i.toNat < held.length := by omega
    have hplace := toNat_place hc h.head (Nat.lt_of_lt_of_le hlt hle)
    have hcell : r.data[((r.head + i) % BitVec.ofNat 32 capacity).toNat]? = some held[i.toNat] := by
      rw [hplace, h.cells i.toNat hlt, List.getElem?_eq_getElem hlt]
    have hnext : (i + 1).toNat = i.toNat + 1 := by
      have h1 : (1 : BitVec 32).toNat = 1 := rfl
      rw [BitVec.toNat_add, h1, Nat.mod_eq_of_lt (by omega)]
    obtain ⟨lines, hr, hvals, hidx⟩ := ih (i + 1) (by omega)
    refine ⟨((r.head + i) % BitVec.ofNat 32 capacity, held[i.toNat]) :: lines, ?_, ?_, ?_⟩
    · rw [RingBuffer.printFrom, hcell, Option.bind_eq_bind, Option.bind_some, hr]
      rfl
    · rw [List.map_cons, hvals, hnext, ← List.drop_eq_getElem_cons hlt]
    · intro line hm
      rcases List.mem_cons.mp hm with rfl | hm
      · refine ⟨?_, hcell⟩
        rw [hplace]
        exact Nat.mod_lt _ (Nat.zero_lt_of_lt h.head)
      · exact hidx line hm

/-- As many pops as there are values. -/
theorem Holds.pop_all (hc : capacity < 2 ^ 31) : ∀ {held : List α} {r : RingBufferT α},
    Holds capacity r held → ∃ r', calls (Call.run capacity) r (List.replicate held.length .pop) =
      some (held.map (fun x => (true, some x)), r') ∧ Holds capacity r' [] := by
  intro held
  induction held with
  | nil => exact fun {r} h => ⟨r, rfl, h⟩
  | cons x held ih =>
    intro r h
    obtain ⟨r₁, hpop, h₁⟩ := h.pop hc
    obtain ⟨r₂, hall, h₂⟩ := ih h₁
    refine ⟨r₂, ?_, h₂⟩
    rw [List.length_cons, List.replicate_succ, calls, Call.run, hpop]
    simp only [Option.bind_eq_bind, Option.bind_some, hall]
    rfl

/-- **`ring_buffer_print` shows what the pops to come will return**, in their order, in every state a
run gets to: each line names the place in the array where its value lies, and after these pops the
buffer is empty. -/
theorem ringBuffer_print (hpos : 1 ≤ capacity) (hc : capacity < 2 ^ 31) (zero : α)
    (cs : List (Call α)) : ∃ rs r lines r',
    calls (Call.run capacity) (ringBufferInit capacity zero) cs = some (rs, r) ∧
    ringBufferPrint capacity r = some (ringBufferIsEmpty r, lines) ∧
    (∀ line ∈ lines, line.1.toNat < capacity ∧ r.data[line.1.toNat]? = some line.2) ∧
    calls (Call.run capacity) r (List.replicate lines.length .pop) =
      some (lines.map (fun line => (true, some line.2)), r') ∧
    ringBufferIsEmpty r' = true := by
  obtain ⟨r, hr, h⟩ := (fifo_refines hc).calls (holds_init hpos zero)
    (allLegal_of_forall cs (fun _ _ => trivial))
  obtain ⟨r', hall, h'⟩ := h.pop_all hc
  obtain ⟨lines, hlines, hvals, hidx⟩ := h.printFrom hc r.size.toNat 0 ((Nat.zero_add _).trans h.size)
  have hvals : lines.map Prod.snd = (specCalls (fifo capacity) [] cs).2 := hvals
  refine ⟨_, r, lines, r', hr, ?_, hidx, ?_, h'.isEmpty_iff.mpr rfl⟩
  · rw [ringBufferPrint]
    by_cases he : ringBufferIsEmpty r = true
    · rw [h.isEmpty_iff.mp he, List.map_eq_nil_iff] at hvals
      rw [if_pos he, he, hvals]
    · rw [if_neg he, hlines, Option.map_some, Bool.eq_false_of_not_eq_true he]
  · rw [← hvals, List.length_map, List.map_map] at hall
    exact hall

/-- A print of the buffer of capacity 2, after it has wrapped around. -/
theorem ringBuffer_print_two : ∃ rs r lines r',
    calls (Call.run 2) (ringBufferInit 2 0) [.push 5, .push 6, .pop, .push 8] = some (rs, r) ∧
    ringBufferPrint 2 r = some (ringBufferIsEmpty r, lines) ∧
    (∀ line ∈ lines, line.1.toNat < 2 ∧ r.data[line.1.toNat]? = some line.2) ∧
    calls (Call.run 2) r (List.replicate lines.length .pop) =
      some (lines.map (fun line => (true, some line.2)), r') ∧
    ringBufferIsEmpty r' = true :=
  ringBuffer_print (by decide) (by decide) 0 [.push 5, .push 6, .pop, .push 8]

end DataStructures.RingBuffer
