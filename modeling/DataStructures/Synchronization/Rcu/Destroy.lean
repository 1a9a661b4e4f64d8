import DataStructures.List.KslistSafe
import DataStructures.Synchronization.Rcu.Callbacks

/-!
# `rcu_destroy`

`rcu_destroy` asks first whether a callback is pending.  If so, it goes through the list with
`kslist_for_each_safe`, which never returns; so it comes through exactly if nothing is pending
(`rcuDestroy_iff`).
-/

namespace DataStructures.Rcu

open Kslist

variable {ι P V F : Type}

/-! ### Teardown -/

/-- The body of the loop of `rcu_destroy`: the callback, and `free`. -/
def destroyNode (s : State ι P V F) : Node → Option (State ι P V F)
  | .cbs => none -- no `rcu_node_t` around the head
  | .node a => do
      let callback ← s.nodes a
      return { s with
        invoked := (a, callback) :: s.invoked
        links := Function.update s.links (.node a) none
        nodes := Function.update s.nodes a none }

/-- `rcu_destroy`. -/
def rcuDestroy (fuel : Nat) (s : State ι P V F) : Option (State ι P V F) := do
  let empty ← kslistIsEmpty s.links .cbs
  let s ← if empty then some s else kslistForEachSafe State.links destroyNode fuel s .cbs
  return { s with links := Function.update s.links .cbs none }

/-- `rcu_destroy` returns, has invoked each pending callback once, in their order, and has freed
their nodes. -/
def DestroysAll (s : State ι P V F) (cs : List (Callback V F)) : Prop :=
  ∃ fuel s', rcuDestroy fuel s = some s' ∧ s'.invoked = cs.reverse ++ s.invoked ∧
    ∀ e ∈ cs, s'.nodes e.1 = none ∧ s'.links (.node e.1) = none

variable {s : State ι P V F} {cs : List (Callback V F)}

/-- **With a callback pending `rcu_destroy` does not return.** -/
theorem rcuDestroy_none {e : Callback V F} (hq : Queued s (e :: cs)) (fuel : Nat) :
    rcuDestroy fuel s = none := by
  obtain ⟨head, hhead, rfl, -⟩ := hq
  simp [rcuDestroy, kslistIsEmpty, hhead, kslistForEachSafe_none]

/-- **`rcu_destroy` comes through exactly if nothing is pending.** -/
theorem rcuDestroy_iff (hq : Queued s cs) : DestroysAll s cs ↔ cs = [] := by
  cases cs with
  | nil =>
    obtain ⟨head, hhead, rfl⟩ := hq
    have hrun : rcuDestroy 0 s = some { s with links := Function.update s.links .cbs none } := by
      simp [rcuDestroy, kslistIsEmpty, hhead]
    exact ⟨fun _ => rfl, fun _ => ⟨0, _, hrun, rfl, fun e he => absurd he List.not_mem_nil⟩⟩
  | cons e cs =>
    refine ⟨fun h => ?_, fun h => absurd h (List.cons_ne_nil e cs)⟩
    obtain ⟨fuel, s', hr, -⟩ := h
    rw [rcuDestroy_none hq] at hr
    cases hr

/-- **The iterator that is safe against removal never is.**  On no list does it come to its end
with a body that removes the current node, and `rcu_destroy` does what it is for exactly if no
callback is pending, as then it leaves the loop out. -/
theorem forEachSafe_never {α : Type} [DecidableEq α] (m : Store α) (head : α) (xs : List α)
    (s : State ι P V F) (cs : List (Callback V F)) (hq : Queued s cs) :
    ¬ IteratesSafely m head xs ∧ (DestroysAll s cs ↔ cs = []) :=
  ⟨not_iteratesSafely m head xs, rcuDestroy_iff hq⟩

/-! ### One pending callback -/

/-- A call of `rcu_call`, with its allocation and its push. -/
def oneCall : List (Act Unit Unit Unit Unit) :=
  [.call () (.call () none), .step () true, .step () true]

/-- The state after it, with one callback pending. -/
def pendingState : State Unit Unit Unit Unit :=
  (Lib.Runs.run step (rcuCreate (fun _ => none)) oneCall).get rfl

theorem pendingState_reachable : Reachable pendingState :=
  ⟨fun _ => none, oneCall, (Option.some_get rfl).symm⟩

theorem pendingState_queued : Queued pendingState [(0, ((), none))] :=
  ⟨some (.node 0), rfl, rfl, rfl, none, rfl, rfl⟩

theorem forEachSafe_never_pending :
    ¬ IteratesSafely pendingState.links .cbs [.node 0] ∧
      (DestroysAll pendingState [(0, ((), none))] ↔ [((0 : Nat), ((), (none : Pointer Unit)))] = []) :=
  forEachSafe_never _ _ _ _ _ pendingState_queued

/-- Even the list of `rcu_destroy` with one callback is not iterated to its end, and
`rcu_destroy` does not return, whatever number of turns it is given. -/
theorem rcuDestroy_fails_pending :
    Reachable pendingState ∧ Chained pendingState.links .cbs [.node 0] ∧
      ¬ IteratesSafely pendingState.links .cbs [.node 0] ∧
      ∀ fuel, rcuDestroy fuel pendingState = none :=
  ⟨pendingState_reachable, ⟨by decide, rfl, rfl⟩, not_iteratesSafely _ _ _,
    rcuDestroy_none pendingState_queued⟩

end DataStructures.Rcu
