import DataStructures.Lib.CInt
import DataStructures.Lib.Outcomes

/-!
# `heap/min_heap.c` and `heap/max_heap.c`

The two files differ in the test on the result of the compare callback; here it is `wrong`, which
says that a child may not stand below its parent.  `none` as the result means that an entry has
been read that was not written, the array has been left, or an index has overflown.

A datum is its value; the allocation callback is given to the call it is made in, and answers with
the copy that is stored, or NULL.  The heap and its callbacks are not NULL.  A loop takes no more
rounds than there are entries.
-/

namespace DataStructures.Heap

open Lib

variable {D : Type}

/-- `PARENT_IDX`. -/
def parentIdx (x : Nat) : Nat := (x - 1) / 2

/-- `LEFT_IDX`. -/
def leftIdx (x : Nat) : Option Nat := toIdx (2 * x + 1)

/-- `RIGHT_IDX`. -/
def rightIdx (x : Nat) : Option Nat := toIdx (2 * x + 2)

/-- The array; an entry is `none` until it is written. -/
abbrev Buffer (D : Type) := List (Option D)

/-- `buf[i]`. -/
def getAt (buf : Buffer D) (i : Nat) : Option D := buf[i]?.join

/-- `buf[i] = x`. -/
def putAt (buf : Buffer D) (i : Nat) (x : D) : Option (Buffer D) :=
  if i < buf.length then some (buf.set i (some x)) else none

/-- `min_heap_t` and `max_heap_t`. -/
structure HeapT (D : Type) where
  data : Buffer D
  size : Nat
  capacity : Nat
  cmp : D → D → Int

/-- `__is_full`. -/
def isFull (h : HeapT D) : Bool := h.size == h.capacity

/-- `__is_empty`. -/
def isEmpty (h : HeapT D) : Bool := h.size == 0

/-- `__swap`. -/
def swap (buf : Buffer D) (idx1 idx2 : Nat) : Option (Buffer D) := do
  let x ← getAt buf idx1
  let y ← getAt buf idx2
  let buf ← putAt buf idx1 y
  putAt buf idx2 x

/-- `__heapify_up`. -/
def heapifyUp (wrong : Int → Bool) (cmp : D → D → Int) :
    Nat → Buffer D → Nat → Option (Buffer D)
  | 0, _, _ => none
  | rounds + 1, heap, idx =>
      if idx = 0 then some heap
      else do
        let pidx := parentIdx idx
        let p ← getAt heap pidx
        let x ← getAt heap idx
        if wrong (cmp p x) then
          let heap ← swap heap pidx idx
          heapifyUp wrong cmp rounds heap pidx
        else return heap

/-- `tmp`, or the child if it is there and may not stand below it. -/
def pick (wrong : Int → Bool) (cmp : D → D → Int) (heap : Buffer D) (size tmp child : Nat) :
    Option Nat :=
  if child < size then do
    let x ← getAt heap tmp
    let y ← getAt heap child
    return if wrong (cmp x y) then child else tmp
  else some tmp

/-- `__heapify_down`. -/
def heapifyDown (wrong : Int → Bool) (cmp : D → D → Int) (size : Nat) :
    Nat → Buffer D → Nat → Option (Buffer D)
  | 0, _, _ => none
  | rounds + 1, heap, idx => do
      let lidx ← leftIdx idx
      let ridx ← rightIdx idx
      if lidx ≥ size && ridx ≥ size then return heap
      let tmp ← pick wrong cmp heap size idx lidx
      let tmp ← pick wrong cmp heap size tmp ridx
      if tmp = idx then return heap
      let heap ← swap heap idx tmp
      heapifyDown wrong cmp size rounds heap tmp

/-- `min_heap_init` and `max_heap_init`: the heap, or NULL. -/
def heapInit (capacity : Int) (cmp : D → D → Int) (outcomes : Outcomes) : Option (HeapT D) :=
  if capacity < 0 then none
  else if !outcomes.first then none
  else if !outcomes.rest.first then none
  else some ⟨List.replicate capacity.toNat none, 0, capacity.toNat, cmp⟩

/-- `min_heap_insert` and `max_heap_insert`. -/
def heapInsert (wrong : Int → Bool) (h : HeapT D) (alloc : D → Option D) (data : Option D) :
    Option (Int × HeapT D) :=
  match data with
  | none => some (-1, h)
  | some data =>
      if isFull h then some (-1, h)
      else
        match alloc data with
        | none => some (-2, h)
        | some newData => do
            let idx := h.size
            let heap ← putAt h.data idx newData
            let heap ← heapifyUp wrong h.cmp (idx + 1) heap idx
            return (0, { h with data := heap, size := idx + 1 })

/-- `min_heap_delete` and `max_heap_delete`, with the datum that is freed. -/
def heapDelete (wrong : Int → Bool) (h : HeapT D) : Option (Int × Option D × HeapT D) :=
  if isEmpty h then some (-1, none, h)
  else do
    let size := h.size - 1
    let heap ← swap h.data 0 size
    let freed ← getAt heap size
    let heap ← heapifyDown wrong h.cmp size (size + 1) heap 0
    return (0, some freed, { h with data := heap, size := size })

/-- `min_heap_peek` and `max_heap_peek`: a datum, or NULL. -/
def heapPeek (h : HeapT D) : Option (Option D) :=
  if isEmpty h then some none
  else (getAt h.data 0).map some

/-! ### The two files -/

/-- The functions of one of the files. -/
structure Functions (D : Type) where
  init : Int → (D → D → Int) → Outcomes → Option (HeapT D)
  insert : HeapT D → (D → Option D) → Option D → Option (Int × HeapT D)
  delete : HeapT D → Option (Int × Option D × HeapT D)
  peek : HeapT D → Option (Option D)

/-- `heap/min_heap.c`: a parent may not compare greater than its child. -/
def minHeap : Functions D where
  init := heapInit
  insert := heapInsert (fun r => 0 < r)
  delete := heapDelete (fun r => 0 < r)
  peek := heapPeek

/-- `heap/max_heap.c`: a parent may not compare smaller than its child. -/
def maxHeap : Functions D where
  init := heapInit
  insert := heapInsert (fun r => r < 0)
  delete := heapDelete (fun r => r < 0)
  peek := heapPeek

end DataStructures.Heap
