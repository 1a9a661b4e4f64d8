import DataStructures.List.Kslist

/-!
# The iterator that is safe against removal

`kslist_for_each_safe` reads the `next` of its second cursor before it tests the first one, at
the start and after each turn.  In a ring, for which the macro of the doubly linked list does
the same, there is always a node.  Here the cursor is NULL in the end, so the loop never gets to
the test that would end it: `kslistForEachSafe_none`, for every list and every body.
-/

namespace DataStructures.Kslist

variable {α σ : Type}

/-- The loop does not come to its end, whatever the body does and however many turns it may
take: the cursor `n` is NULL before `pos` is. -/
theorem forEachSafeFrom_none (store : σ → Store α) (body : σ → α → Option σ) :
    ∀ (fuel : Nat) (s : σ) (x : α) (n : Option α), forEachSafeFrom store body fuel s (some x) n = none := by
  intro fuel
  induction fuel with
  | zero => intro s x n; rfl
  | succ fuel ih =>
    intro s x n
    rw [forEachSafeFrom, Option.bind_eq_bind, Option.bind_eq_none_iff]
    intro s' _
    cases n with
    | none => rfl
    | some y =>
      rw [Option.bind_eq_bind, Option.bind_eq_none_iff]
      exact fun next _ => ih s' y next

/-- **`kslist_for_each_safe` never returns.**  On the empty list it reads through NULL before
the first test. -/
theorem kslistForEachSafe_none (store : σ → Store α) (body : σ → α → Option σ) (fuel : Nat) (s : σ)
    (head : α) : kslistForEachSafe store body fuel s head = none := by
  rw [kslistForEachSafe, Option.bind_eq_bind, Option.bind_eq_none_iff]
  intro pos _
  cases pos with
  | none => rfl
  | some x =>
    rw [Option.bind_eq_none_iff]
    exact fun n _ => forEachSafeFrom_none store body fuel s x n

/-- A body that frees or unlinks the node it is called with: it succeeds on a node that is there,
and changes no other but the one that leads to it. -/
def Removes (body : Store α → α → Option (Store α)) : Prop :=
  ∀ m x, (m x).isSome → ∃ m', body m x = some m' ∧ ∀ y, y ≠ x → m y ≠ some (some x) → m' y = m y

/-- The body with a record of the nodes it is called with. -/
def visiting (body : Store α → α → Option (Store α)) (s : Store α × List α) (x : α) :
    Option (Store α × List α) := do
  let m ← body s.1 x
  return (m, s.2 ++ [x])

/-- With any body that removes the current node, the loop ends and has been at the nodes `xs`, each
once and in this order. -/
def IteratesSafely (m : Store α) (head : α) (xs : List α) : Prop :=
  ∀ body, Removes body → ∃ fuel m',
    kslistForEachSafe Prod.fst (visiting body) fuel (m, []) head = some (m', xs)

/-- `free(pos)`. -/
def freeNode [DecidableEq α] (m : Store α) (x : α) : Option (Store α) :=
  if (m x).isSome then some (Function.update m x none) else none

theorem removes_freeNode [DecidableEq α] : Removes (freeNode : Store α → α → Option (Store α)) := by
  intro m x hx
  exact ⟨_, if_pos hx, fun y hy _ => Function.update_of_ne hy _ _⟩

theorem not_iteratesSafely [DecidableEq α] (m : Store α) (head : α) (xs : List α) :
    ¬ IteratesSafely m head xs := by
  intro h
  obtain ⟨fuel, m', hr⟩ := h freeNode removes_freeNode
  rw [kslistForEachSafe_none] at hr
  cases hr

end DataStructures.Kslist
