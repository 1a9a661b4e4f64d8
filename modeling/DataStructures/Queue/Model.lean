import DataStructures.Lib.Outcomes
import Mathlib.Tactic.Common

/-!
# `queue/queue.c`

The queue in an array: elements are written at the tail and read at the head, and a slot is
never used again.  `q` holds what has been written, the two cursors are indices, and an element
is a pointer that may be NULL.  Reading a slot that has not been written is not defined.

The queue itself is not NULL.
-/

namespace DataStructures.Queue

open Lib

variable {E : Type}

/-- `queue_t`. -/
structure QueueT (E : Type) where
  q : Nat → Option E
  h : Nat
  t : Nat
  size : Nat

/-- `queue_create`: the queue, or NULL. -/
def queueCreate (E : Type) (size : Nat) (outcomes : Outcomes) : Option (QueueT E) × Outcomes :=
  if outcomes.first then
    if outcomes.rest.first then (some ⟨fun _ => none, 0, 0, size⟩, outcomes.rest.rest)
    else (none, outcomes.rest.rest)
  else (none, outcomes.rest)

/-- `queue_enqueue`. -/
def queueEnqueue (queue : QueueT E) : Option E → Int × QueueT E
  | none => (-1, queue)
  | some elem =>
      if queue.t ≥ queue.size then (-2, queue)
      else (0, { queue with q := Function.update queue.q queue.t (some elem), t := queue.t + 1 })

/-- `queue_dequeue`. -/
def queueDequeue (queue : QueueT E) : Option (Option E × QueueT E) :=
  if queue.h = queue.t then some (none, queue)
  else do
    let elem ← queue.q queue.h
    return (some elem, { queue with h := queue.h + 1 })

/-- `queue_is_empty`. -/
def queueIsEmpty (queue : QueueT E) : Bool := queue.h == queue.t

/-- `queue_size`. -/
def queueSize (queue : QueueT E) : Nat := queue.t - queue.h

/-- The loop of `queue_display`, from `it` on: what the callback is given. -/
def displayFrom (queue : QueueT E) : Nat → Nat → Option (List E)
  | 0, _ => none
  | fuel + 1, it =>
      if it = queue.t then some []
      else do
        let elem ← queue.q it
        let elems ← displayFrom queue fuel (it + 1)
        return elem :: elems

/-- `queue_display`. -/
def queueDisplay (fuel : Nat) (queue : QueueT E) : Option (List E) := displayFrom queue fuel queue.h

end DataStructures.Queue
