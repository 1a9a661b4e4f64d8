import DataStructures.Lib.Outcomes
import Mathlib.Tactic.Common

/-!
# A memory of nodes

`Memory N` holds nodes at addresses.  Addresses are handed out one after the other
and never again, so a pointer to a freed node is found to dangle whenever it is
followed: `load`, `store` and `free` are `none` at an address without a node.
Whether an allocation succeeds is taken from the `Outcomes` the memory carries.

`Only l m m'` says that between two memories only the nodes at `l` have changed.
The specifications of the operations are `store_spec`, `free_spec`, `malloc_ok` and
`malloc_fail`.
-/

namespace DataStructures.Lib

/-- A pointer; `none` is `NULL`. -/
abbrev Ptr := Option Nat

/-- Nodes at addresses, all below `next`. -/
structure Memory (N : Type) where
  cells : Nat → Option N
  next : Nat
  outcomes : Outcomes
  fresh : ∀ a, next ≤ a → cells a = none

namespace Memory

variable {N : Type}

/-- A memory without nodes. -/
def empty (o : Outcomes) : Memory N := ⟨fun _ => none, 0, o, fun _ _ => rfl⟩

/-- Following a pointer. -/
def load (m : Memory N) : Ptr → Option N
  | none => none
  | some a => m.cells a

/-- Changing what is at an address, where there is a node. -/
def change (m : Memory N) (a : Nat) (n : Option N) : Option (Memory N) :=
  if h : (m.cells a).isSome then
    some { m with
      cells := Function.update m.cells a n
      fresh := fun b hb => by
        have hba : b ≠ a := by
          rintro rfl
          rw [m.fresh b hb] at h
          exact absurd h (by simp)
        rw [Function.update_of_ne hba, m.fresh b hb] }
  else none

/-- Writing through a pointer. -/
def store (m : Memory N) (p : Ptr) (n : N) : Option (Memory N) := p.bind (fun a => m.change a (some n))

/-- `free`. -/
def free (m : Memory N) : Ptr → Option (Memory N)
  | none => some m
  | some a => m.change a none

/-- An allocation made elsewhere, by a callback. -/
def ask (m : Memory N) : Bool × Memory N :=
  (m.outcomes.first, { m with outcomes := m.outcomes.rest })

/-- `malloc`, of a node that holds `n` until it is written. -/
def malloc (m : Memory N) (n : N) : Ptr × Memory N :=
  if m.outcomes.first then
    (some m.next,
      { cells := Function.update m.cells m.next (some n)
        next := m.next + 1
        outcomes := m.outcomes.rest
        fresh := fun b hb => by
          rw [Function.update_of_ne (by omega), m.fresh b (by omega)] })
  else (none, { m with outcomes := m.outcomes.rest })

/-! ### Specifications -/

variable {m m' m'' : Memory N} {a : Nat} {n n₀ : N}

theorem lt_next (h : m.cells a = some n) : a < m.next := by
  by_contra hge
  rw [m.fresh a (by omega)] at h
  exact absurd h (by simp)

/-- From `m` to `m'` only nodes at addresses of `l` have changed. -/
structure Only (l : List Nat) (m m' : Memory N) : Prop where
  cells : ∀ a, a ∉ l → m'.cells a = m.cells a
  next : m'.next = m.next
  outcomes : m'.outcomes = m.outcomes

theorem Only.refl (l : List Nat) (m : Memory N) : Only l m m := ⟨fun _ _ => rfl, rfl, rfl⟩

theorem Only.trans {l : List Nat} (h : Only l m m') (h' : Only l m' m'') : Only l m m'' :=
  ⟨fun a ha => (h'.cells a ha).trans (h.cells a ha), h'.next.trans h.next,
    h'.outcomes.trans h.outcomes⟩

theorem Only.mono {l l' : List Nat} (h : Only l m m') (hl : l ⊆ l') : Only l' m m' :=
  ⟨fun a ha => h.cells a (fun hm => ha (hl hm)), h.next, h.outcomes⟩

/-- Where only `a` has changed, and how. -/
theorem Only.cells_eq {x : Option N} (h : Only [a] m m') (ha : m'.cells a = x) :
    m'.cells = Function.update m.cells a x := by
  refine Function.eq_update_iff.mpr ⟨ha, ?_⟩
  intro b hb
  exact h.cells b (fun hm => hb (List.mem_singleton.mp hm))

theorem change_spec (h : m.cells a = some n₀) (x : Option N) :
    ∃ m', m.change a x = some m' ∧ m'.cells a = x ∧ Only [a] m m' := by
  refine ⟨_, dif_pos (by rw [h]; rfl), Function.update_self .., fun b hb => ?_, rfl, rfl⟩
  rw [List.mem_singleton] at hb
  exact Function.update_of_ne hb _ _

theorem store_spec (h : m.cells a = some n₀) (n : N) :
    ∃ m', m.store (some a) n = some m' ∧ m'.cells a = some n ∧ Only [a] m m' :=
  change_spec h (some n)

/-- Reading a node and writing it back changed. -/
theorem modify_spec (h : m.cells a = some n) (f : N → N) :
    ∃ m', (m.load (some a)).bind (fun n => m.store (some a) (f n)) = some m' ∧
      m'.cells = Function.update m.cells a (some (f n)) ∧ m'.next = m.next ∧
      m'.outcomes = m.outcomes := by
  obtain ⟨m', hr, ha, honly⟩ := store_spec h (f n)
  refine ⟨m', ?_, honly.cells_eq ha, honly.next, honly.outcomes⟩
  rw [load, h, Option.bind_some, hr]

theorem free_spec (h : m.cells a = some n₀) :
    ∃ m', m.free (some a) = some m' ∧ m'.cells a = none ∧ Only [a] m m' :=
  change_spec h none

theorem malloc_ok (h : m.outcomes.first = true) (n : N) :
    ∃ m', m.malloc n = (some m.next, m') ∧ m'.cells m.next = some n ∧
      (∀ a, a ≠ m.next → m'.cells a = m.cells a) ∧ m'.next = m.next + 1 ∧
      m'.outcomes = m.outcomes.rest := by
  refine ⟨_, if_pos h, Function.update_self .., fun b hb => ?_, rfl, rfl⟩
  exact Function.update_of_ne hb _ _

theorem malloc_fail (h : m.outcomes.first = false) (n : N) :
    m.malloc n = (none, m.ask.2) :=
  if_neg (by rw [h]; exact Bool.false_ne_true)

end Memory

end DataStructures.Lib
