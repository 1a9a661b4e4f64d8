import DataStructures.Queue.Model
import DataStructures.Lib.Refinement

/-!
# The queue holds what has been put in, first in, first out

`Holds queue l room`: the elements `l` are in the queue, the oldest first, and `room` slots have
never been used.  `Refines`: every sequence of calls does what it does to a list that takes no
more than `size` elements over its whole life.  `queue_display`: what is shown is what comes out.
-/

namespace DataStructures.Queue

open Lib Refinement

variable {E : Type} {queue : QueueT E} {l : List E} {room : Nat} {e : E}

/-- The queue holds the elements, and as many more can be put in. -/
structure Holds (queue : QueueT E) (l : List E) (room : Nat) : Prop where
  slots : ∀ i < l.length, queue.q (queue.h + i) = l[i]?
  tail : queue.t = queue.h + l.length
  room : queue.t + room = queue.size

/-- **The queue is created** if both allocations succeed. -/
theorem queueCreate_of {outcomes : Outcomes} (h0 : outcomes.first = true)
    (h1 : outcomes.rest.first = true) (size : Nat) : ∃ queue,
      queueCreate E size outcomes = (some queue, outcomes.rest.rest) ∧ Holds queue [] size ∧
        queue.size = size := by
  rw [queueCreate, if_pos h0, if_pos h1]
  exact ⟨_, rfl, ⟨fun i hi => absurd hi (Nat.not_lt_zero i), rfl, Nat.zero_add size⟩, rfl⟩

theorem queueCreate_fails {outcomes : Outcomes}
    (h : ¬ (outcomes.first = true ∧ outcomes.rest.first = true)) (size : Nat) :
    ∃ o, queueCreate E size outcomes = (none, o) := by
  rw [queueCreate]
  by_cases h0 : outcomes.first = true
  · rw [if_pos h0, if_neg fun h1 => h ⟨h0, h1⟩]
    exact ⟨_, rfl⟩
  · rw [if_neg h0]
    exact ⟨_, rfl⟩

theorem queueCreate_allOk (size : Nat) : ∃ queue,
    queueCreate E size .allOk = (some queue, .allOk) ∧ Holds queue [] size ∧ queue.size = size :=
  queueCreate_of rfl rfl size

theorem Holds.isEmpty (h : Holds queue l room) : queueIsEmpty queue = l.isEmpty := by
  rw [queueIsEmpty, h.tail]
  cases l with
  | nil => exact beq_self_eq_true _
  | cons e l => exact beq_eq_false_iff_ne.mpr (Nat.ne_of_lt (Nat.lt_add_of_pos_right (Nat.succ_pos _)))

theorem Holds.size_eq (h : Holds queue l room) : queueSize queue = l.length := by
  rw [queueSize, h.tail, Nat.add_sub_cancel_left]

/-- Putting an element in, where there is room. -/
theorem Holds.enqueue (h : Holds queue l (room + 1)) (e : E) : ∃ queue',
    queueEnqueue queue (some e) = (0, queue') ∧ Holds queue' (l ++ [e]) room ∧
      queue'.size = queue.size := by
  have hlt : ¬ queue.t ≥ queue.size := by
    have := h.room
    omega
  refine ⟨_, if_neg hlt, ⟨fun i hi => ?_, ?_, ?_⟩, rfl⟩
  · rw [List.length_append, List.length_singleton] at hi
    dsimp only
    by_cases hil : i < l.length
    · have hne : queue.h + i ≠ queue.t := by
        rw [h.tail]
        omega
      rw [Function.update_of_ne hne, h.slots i hil, List.getElem?_append_left hil]
    · obtain rfl : i = l.length := by omega
      rw [h.tail, Function.update_self, List.getElem?_concat_length]
  · rw [List.length_append, List.length_singleton, h.tail, Nat.add_assoc]
  · have := h.room
    dsimp only
    omega

theorem Holds.enqueue_full (h : Holds queue l 0) (e : E) :
    queueEnqueue queue (some e) = (-2, queue) :=
  if_pos (Nat.le_of_eq h.room.symm)

/-- Taking the first one out. -/
theorem Holds.dequeue (h : Holds queue (e :: l) room) : ∃ queue',
    queueDequeue queue = some (some e, queue') ∧ Holds queue' l room ∧ queue'.size = queue.size := by
  have hne : queue.h ≠ queue.t := by
    rw [h.tail, List.length_cons]
    omega
  have hq : queue.q queue.h = some e := h.slots 0 (Nat.succ_pos _)
  have hrun : queueDequeue queue = some (some e, { queue with h := queue.h + 1 }) := by
    rw [queueDequeue, if_neg hne, hq]
    rfl
  refine ⟨_, hrun, ⟨fun i hi => ?_, ?_, h.room⟩, rfl⟩
  · have hslot := h.slots (i + 1) (Nat.succ_lt_succ hi)
    rwa [List.getElem?_cons_succ, ← Nat.add_assoc, Nat.add_right_comm] at hslot
  · rw [h.tail, List.length_cons, Nat.add_right_comm, Nat.add_assoc]

theorem Holds.dequeue_nil (h : Holds queue [] room) : queueDequeue queue = some (none, queue) :=
  if_pos h.tail.symm

/-! ### The refinement -/

/-- The calls, with what they are given. -/
inductive Call (E : Type) where
  | enqueue (elem : Option E)
  | dequeue
  | isEmpty
  | size

/-- What they return. -/
inductive Result (E : Type) where
  | code (c : Int)
  | elem (e : Option E)
  | empty (b : Bool)
  | size (n : Nat)

def Call.run (queue : QueueT E) : Call E → Option (Result E × QueueT E)
  | enqueue elem => some (.code (queueEnqueue queue elem).1, (queueEnqueue queue elem).2)
  | dequeue => (queueDequeue queue).map (fun r => (.elem r.1, r.2))
  | isEmpty => some (.empty (queueIsEmpty queue), queue)
  | size => some (.size (queueSize queue), queue)

/-- The specification: a list, and the room that is left. -/
def spec (t : List E × Nat) : Call E → Result E × (List E × Nat)
  | .enqueue none => (.code (-1), t)
  | .enqueue (some e) => if t.2 = 0 then (.code (-2), t) else (.code 0, (t.1 ++ [e], t.2 - 1))
  | .dequeue => (.elem t.1.head?, (t.1.tail, t.2))
  | .isEmpty => (.empty t.1.isEmpty, t)
  | .size => (.size t.1.length, t)

/-- **The queue refines a list with a budget.** -/
theorem refines :
    Refines Call.run spec (fun _ _ => True) (fun queue (t : List E × Nat) => Holds queue t.1 t.2) := by
  refine ⟨fun {queue t c} h _ => ?_⟩
  obtain ⟨l, room⟩ := t
  cases c with
  | enqueue elem =>
    cases elem with
    | none => exact ⟨queue, rfl, h⟩
    | some e =>
      cases room with
      | zero =>
        refine ⟨queue, ?_, h⟩
        rw [Call.run, h.enqueue_full]
        rfl
      | succ room =>
        obtain ⟨queue', hr, h', -⟩ := h.enqueue e
        refine ⟨queue', ?_, h'⟩
        rw [Call.run, hr]
        rfl
  | dequeue =>
    cases l with
    | nil =>
      refine ⟨queue, ?_, h⟩
      rw [Call.run, h.dequeue_nil]
      rfl
    | cons e l =>
      obtain ⟨queue', hr, h', -⟩ := h.dequeue
      refine ⟨queue', ?_, h'⟩
      rw [Call.run, hr]
      rfl
  | isEmpty =>
    refine ⟨queue, ?_, h⟩
    rw [Call.run, h.isEmpty]
    rfl
  | size =>
    refine ⟨queue, ?_, h⟩
    rw [Call.run, h.size_eq]
    rfl

/-! ### Displaying -/

/-- The rounds of `queue_display` from the `i`-th on. -/
theorem Holds.displayFrom (h : Holds queue l room) : ∀ (n i fuel : Nat), i + n = l.length → n < fuel →
    Queue.displayFrom queue fuel (queue.h + i) = some (l.drop i) := by
  intro n
  induction n with
  | zero =>
    intro i fuel hi hfuel
    obtain ⟨fuel, rfl⟩ := Nat.exists_eq_succ_of_ne_zero (Nat.ne_of_gt hfuel)
    have hend : queue.h + i = queue.t := by
      have := h.tail
      omega
    rw [Queue.displayFrom, if_pos hend, List.drop_of_length_le (by omega)]
  | succ n ih =>
    intro i fuel hi hfuel
    obtain ⟨fuel, rfl⟩ := Nat.exists_eq_succ_of_ne_zero (Nat.ne_of_gt (Nat.zero_lt_of_lt hfuel))
    have hlt : i < l.length := by omega
    have hne : queue.h + i ≠ queue.t := by
      have := h.tail
      omega
    have hrest := ih (i + 1) fuel (by omega) (by omega)
    rw [Queue.displayFrom, if_neg hne, h.slots i hlt, List.getElem?_eq_getElem hlt, Nat.add_assoc, hrest,
      List.drop_eq_getElem_cons hlt]
    rfl

theorem Holds.display (h : Holds queue l room) {fuel : Nat} (hfuel : l.length < fuel) :
    queueDisplay fuel queue = some l :=
  h.displayFrom l.length 0 fuel (Nat.zero_add _) hfuel

/-- As many dequeues as there are elements. -/
theorem Holds.dequeue_all : ∀ {l : List E} {queue : QueueT E}, Holds queue l room →
    ∃ queue', calls Call.run queue (List.replicate l.length .dequeue) =
      some (l.map (fun e => .elem (some e)), queue') ∧ Holds queue' [] room := by
  intro l
  induction l with
  | nil => exact fun {queue} h => ⟨queue, rfl, h⟩
  | cons e l ih =>
    intro queue h
    obtain ⟨queue₁, hr, h₁, _⟩ := h.dequeue
    obtain ⟨queue₂, hall, h₂⟩ := ih h₁
    refine ⟨queue₂, ?_, h₂⟩
    rw [List.length_cons, List.replicate_succ, calls, Call.run, hr]
    simp only [Option.map_some, Option.bind_eq_bind, Option.bind_some, hall]
    rfl

/-- **`queue_display` shows what the dequeues to come will return**, in their order, in every state a
run gets to. -/
theorem queue_display (size : Nat) (cs : List (Call E)) : ∃ queue₀ rs queue elems queue',
    queueCreate E size .allOk = (some queue₀, .allOk) ∧ calls Call.run queue₀ cs = some (rs, queue) ∧
    (∀ fuel, queueSize queue < fuel → queueDisplay fuel queue = some elems) ∧
    calls Call.run queue (List.replicate (queueSize queue) .dequeue) =
      some (elems.map (fun e => .elem (some e)), queue') ∧
    queueIsEmpty queue' = true := by
  obtain ⟨queue₀, hc, h₀, _⟩ := queueCreate_allOk (E := E) size
  obtain ⟨queue, hr, h⟩ := refines.calls (t := ([], size)) h₀ (allLegal_of_forall cs (fun _ _ => trivial))
  obtain ⟨queue', hall, h'⟩ := h.dequeue_all
  refine ⟨queue₀, _, queue, (specCalls spec ([], size) cs).2.1, queue', hc, hr, fun fuel hfuel => ?_, ?_,
    h'.isEmpty⟩
  · rw [h.size_eq] at hfuel
    exact h.display hfuel
  · rw [h.size_eq]
    exact hall

end DataStructures.Queue
