import Mathlib.Data.BitVec
import Mathlib.Data.List.Basic

/-!
# `ring_buffer/rbuffer.c`

The ring buffer for every `RING_BUFFER_CAPACITY` and every type of data.  The cursors are
32-bit words, the array is the list of its entries, and an access outside it is not defined.
-/

namespace DataStructures.RingBuffer

/-- `ring_buffer_t`. -/
structure RingBufferT (α : Type) where
  data : List α
  head : BitVec 32
  tail : BitVec 32
  size : BitVec 32

variable {α : Type}

/-- `ring_buffer_is_full`. -/
def ringBufferIsFull (capacity : Nat) (r : RingBufferT α) : Bool := r.size == BitVec.ofNat 32 capacity

/-- `ring_buffer_is_empty`. -/
def ringBufferIsEmpty (r : RingBufferT α) : Bool := r.size == 0

/-- `ring_buffer_init`; `zero` is the value whose bytes are 0. -/
def ringBufferInit (capacity : Nat) (zero : α) : RingBufferT α where
  head := 0
  tail := 0
  size := 0
  data := List.replicate capacity zero

/-- `ring_buffer_push`. -/
def ringBufferPush (capacity : Nat) (r : RingBufferT α) (data : α) :
    Option (Bool × RingBufferT α) :=
  if ringBufferIsFull capacity r then some (false, r)
  else if r.tail.toNat < r.data.length then
    some (true, { r with
      data := r.data.set r.tail.toNat data
      tail := (r.tail + 1) % BitVec.ofNat 32 capacity
      size := r.size + 1 })
  else none

/-- `ring_buffer_pop`: what it returns, and what it has written to `*data`. -/
def ringBufferPop (capacity : Nat) (r : RingBufferT α) :
    Option ((Bool × Option α) × RingBufferT α) :=
  if ringBufferIsEmpty r then some ((false, none), r)
  else do
    let data ← r.data[r.head.toNat]?
    return ((true, some data), { r with
      head := (r.head + 1) % BitVec.ofNat 32 capacity
      size := r.size - 1 })

/-- The loop of `ring_buffer_print`, for `n` rounds from the `i`-th on: each index and what the
callback is given. -/
def printFrom (capacity : Nat) (r : RingBufferT α) : Nat → BitVec 32 → Option (List (BitVec 32 × α))
  | 0, _ => some []
  | n + 1, i => do
      let index := (r.head + i) % BitVec.ofNat 32 capacity
      let data ← r.data[index.toNat]?
      let lines ← printFrom capacity r n (i + 1)
      return (index, data) :: lines

/-- `ring_buffer_print`; the first part is whether it prints `EMPTY`. -/
def ringBufferPrint (capacity : Nat) (r : RingBufferT α) : Option (Bool × List (BitVec 32 × α)) :=
  if ringBufferIsEmpty r then some (true, [])
  else (printFrom capacity r r.size.toNat 0).map (false, ·)

end DataStructures.RingBuffer
