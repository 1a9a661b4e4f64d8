import DataStructures.Stack.Model
import DataStructures.Lib.Refinement

/-!
# The stack is LIFO

`lifo` is the specification: a list of pointers, the last pushed first.  `Holds s entries`:
the list nodes of `s` are a ring through the entries, and each entry holds its data.

`lifo_refines`: a push and a pop do on the stack what they do on the list.  `stack_top` reads
what the next pop returns, as long as there is something to pop.  Behind the head of an empty
stack lies the head again, and `stack_top` takes it for the list node of an entry:
`topAgrees_iff`.
-/

namespace DataStructures.Stack

open Lib Kdlist Refinement

variable {s : StackT} {entries : List (Nat × Ptr)} {e : Nat × Ptr}

/-- A call on a stack. -/
inductive Call
  | push (data : Ptr)
  | pop

/-- What a call returns. -/
inductive Result
  | pushed (ret : Int)
  | popped (data : Ptr)
  deriving DecidableEq

/-- The call. -/
def Call.run (s : StackT) : Call → Option (Result × StackT)
  | push data => some (.pushed (stackPush s data).1, (stackPush s data).2)
  | pop => (stackPop s).map (fun (data, s) => (.popped data, s))

/-- A stack of pointers; NULL is what an empty one gives. -/
def lifo (held : List Ptr) : Call → Result × List Ptr
  | .push data => (.pushed 0, data :: held)
  | .pop =>
      match held with
      | [] => (.popped none, [])
      | data :: held => (.popped data, held)

/-- **`stack_top` returns what `stack_pop` would return next**, and reads it in an entry. -/
def TopAgrees (s : StackT) : Prop := ∃ data s', stackTop s = some data ∧ stackPop s = some (data, s')

/-- The list nodes of the entries. -/
def nodes (entries : List (Nat × Ptr)) : List Node := entries.map (fun e => .entry e.1)

/-- **The stack keeps the entries**, whatever the allocations to come will answer. -/
structure Keeps (s : StackT) (entries : List (Nat × Ptr)) : Prop where
  ring : Ring s.links .head (nodes entries)
  data : ∀ e ∈ entries, s.mem.cells e.1 = some e.2

/-- **The stack holds the entries**, each an address and its data. -/
structure Holds (s : StackT) (entries : List (Nat × Ptr)) : Prop where
  ring : Ring s.links .head (nodes entries)
  data : ∀ e ∈ entries, s.mem.cells e.1 = some e.2
  outcomes : s.mem.outcomes = .allOk

/-! ### One call -/

theorem Holds.keeps (h : Holds s entries) : Keeps s entries := ⟨h.ring, h.data⟩

theorem keeps_create (links : Lib.Store Node) {o : Outcomes} (ho : o.first = true) :
    ∃ s, stackCreate links o = some s ∧ Keeps s [] ∧ s.mem.outcomes = o.rest := by
  refine ⟨_, if_pos ho, ⟨kdlistHeadInit_ring links .head, ?_⟩, rfl⟩
  intro e he
  exact absurd he (by simp)

theorem holds_create (links : Lib.Store Node) :
    ∃ s, stackCreate links .allOk = some s ∧ Holds s [] := by
  obtain ⟨s, hcreate, hs, hout⟩ := keeps_create links Outcomes.first_allOk
  exact ⟨s, hcreate, hs.ring, hs.data, hout⟩

theorem Keeps.isEmpty_iff (h : Keeps s entries) : stackIsEmpty s = true ↔ entries = [] := by
  rw [stackIsEmpty, kdlistIsEmpty_iff h.ring]
  exact List.map_eq_nil_iff

theorem Holds.isEmpty_iff (h : Holds s entries) : stackIsEmpty s = true ↔ entries = [] :=
  h.keeps.isEmpty_iff

/-- The entries of the tail are not the first one. -/
theorem Keeps.ne_of_mem (h : Keeps s (e :: entries)) : ∀ d ∈ entries, d.1 ≠ e.1 := by
  intro d hd hde
  have hnd := (List.nodup_cons.mp (List.nodup_cons.mp h.ring.nodup).2).1
  exact hnd (List.mem_map.mpr ⟨d, hd, congrArg Node.entry hde⟩)

/-- **A push puts a new entry before the others.** -/
theorem Keeps.push (h : Keeps s entries) (hfirst : s.mem.outcomes.first = true) (data : Ptr) :
    ∃ s' a, stackPush s data = (0, s') ∧ Keeps s' ((a, data) :: entries) ∧
      s'.mem.outcomes = s.mem.outcomes.rest := by
  obtain ⟨mem, hmem, hnew, hold, -, hout⟩ := Memory.malloc_ok hfirst data
  have hfresh : ∀ e ∈ entries, e.1 ≠ s.mem.next := fun e he =>
    (Memory.lt_next (h.data e he)).ne
  have hn : Node.entry s.mem.next ∉ Node.head :: nodes entries := by
    intro hc
    rcases List.mem_cons.mp hc with hc | hc
    · cases hc
    · obtain ⟨e, he, hen⟩ := List.mem_map.mp hc
      exact hfresh e he (Node.entry.inj hen)
  have hpush : stackPush s data =
      (0, ⟨kdlistPushHead s.links .head (.entry s.mem.next), mem⟩) := by
    rw [stackPush, hmem]
  refine ⟨_, s.mem.next, hpush, ⟨?_, ?_⟩, hout⟩
  · rw [kdlistPushHead_eq h.ring hn]
    exact h.ring.link (l := []) (P := []) rfl hn
  · intro e he
    rcases List.mem_cons.mp he with rfl | he
    · exact hnew
    · rw [hold e.1 (hfresh e he)]
      exact h.data e he

/-- A push without memory is refused. -/
theorem push_refused (hfirst : s.mem.outcomes.first = false) (data : Ptr) : (stackPush s data).1 = -2 := by
  rw [stackPush, Memory.malloc_fail hfirst]

theorem Holds.push (h : Holds s entries) (data : Ptr) :
    ∃ s' a, stackPush s data = (0, s') ∧ Holds s' ((a, data) :: entries) := by
  obtain ⟨s', a, hpush, h', hout⟩ := h.keeps.push (by rw [h.outcomes]; rfl) data
  rw [h.outcomes] at hout
  exact ⟨s', a, hpush, h'.ring, h'.data, hout⟩

theorem Holds.pop_empty (h : Holds s []) : stackPop s = some (none, s) := by
  rw [stackPop, kdlistPopHead_nil h.ring]

/-- **A pop takes the first entry, and frees it.** -/
theorem Keeps.pop (h : Keeps s (e :: entries)) :
    ∃ s', stackPop s = some (e.2, s') ∧ Keeps s' entries ∧ s'.mem.outcomes = s.mem.outcomes := by
  have he := h.data e List.mem_cons_self
  obtain ⟨mem, hmem, -, honly⟩ := Memory.free_spec he
  have hpop : stackPop s = some (e.2,
      ⟨join s.links (s.links (.entry e.1)).prev (s.links (.entry e.1)).next, mem⟩) := by
    rw [stackPop, kdlistPopHead_cons h.ring]
    simp only [containerOf, Memory.load, he, hmem, Option.bind_eq_bind, Option.bind_some]
    rfl
  refine ⟨_, hpop, ⟨h.ring.unlink (l := []), ?_⟩, honly.outcomes⟩
  intro d hd
  rw [honly.cells d.1 (fun hc => h.ne_of_mem d hd (List.mem_singleton.mp hc))]
  exact h.data d (List.mem_cons_of_mem e hd)

theorem Holds.pop (h : Holds s (e :: entries)) :
    ∃ s', stackPop s = some (e.2, s') ∧ Holds s' entries := by
  obtain ⟨s', hpop, h', hout⟩ := h.keeps.pop
  exact ⟨s', hpop, h'.ring, h'.data, hout.trans h.outcomes⟩

/-- `stack_top` reads the first entry. -/
theorem Holds.top (h : Holds s (e :: entries)) : stackTop s = some e.2 := by
  rw [stackTop, kdlistGetHead_cons h.ring]
  exact h.data e List.mem_cons_self

/-- In an empty stack it reads around the head. -/
theorem Holds.top_empty (h : Holds s []) : stackTop s = none := by
  rw [stackTop, kdlistGetHead_nil h.ring]
  rfl

/-- **`stack_top` agrees with `stack_pop` exactly when the stack is not empty.** -/
theorem Holds.topAgrees_iff (h : Holds s entries) : TopAgrees s ↔ stackIsEmpty s = false := by
  rw [← Bool.not_eq_true, h.isEmpty_iff]
  cases entries with
  | nil =>
    refine ⟨?_, fun hne => absurd rfl hne⟩
    rintro ⟨data, s', htop, -⟩
    rw [h.top_empty] at htop
    cases htop
  | cons e entries =>
    refine ⟨fun _ => List.cons_ne_nil e entries, fun _ => ?_⟩
    obtain ⟨s', hpop, -⟩ := h.pop
    exact ⟨e.2, s', h.top, hpop⟩

/-- The stack holds the pointers `held`. -/
def Represents (s : StackT) (held : List Ptr) : Prop :=
  ∃ entries, Holds s entries ∧ entries.map Prod.snd = held

/-- **Every call on the stack is the call on the list.** -/
theorem lifo_refines : Refines Call.run lifo (fun _ _ => True) Represents where
  step := by
    rintro s held call ⟨entries, h, rfl⟩ _
    cases call with
    | push data =>
      obtain ⟨s', a, hpush, h'⟩ := h.push data
      refine ⟨s', ?_, (a, data) :: entries, h', rfl⟩
      rw [Call.run, hpush]
      rfl
    | pop =>
      cases entries with
      | nil =>
        refine ⟨s, ?_, [], h, rfl⟩
        rw [Call.run, h.pop_empty]
        rfl
      | cons e entries =>
        obtain ⟨s', hpop, h'⟩ := h.pop
        refine ⟨s', ?_, entries, h', rfl⟩
        rw [Call.run, hpop]
        rfl

/-! ### Runs -/

/-- **The stack is LIFO**, and in every state it reaches `stack_top` agrees with `stack_pop`
exactly when the stack is not empty. -/
theorem stack_lifo (links : Lib.Store Node) (cs : List Call) : ∃ s₀ s,
    stackCreate links .allOk = some s₀ ∧
    calls Call.run s₀ cs = some ((specCalls lifo [] cs).1, s) ∧
    (stackIsEmpty s = true ↔ (specCalls lifo [] cs).2 = []) ∧
    (TopAgrees s ↔ stackIsEmpty s = false) := by
  obtain ⟨s₀, hcreate, h₀⟩ := holds_create links
  obtain ⟨s, hrun, entries, h, hheld⟩ := lifo_refines.calls (t := []) ⟨[], h₀, rfl⟩
    (allLegal_of_forall cs (fun _ _ => trivial))
  refine ⟨s₀, s, hcreate, hrun, ?_, h.topAgrees_iff⟩
  rw [h.isEmpty_iff, ← hheld, List.map_eq_nil_iff]

/-- On a new stack `stack_pop` returns NULL, and `stack_top` reads where there is no entry. -/
theorem stackTop_new :
    let s : StackT := ⟨kdlistHeadInit (fun _ => ⟨.head, .head⟩) .head, .empty .allOk⟩
    stackCreate (fun _ => ⟨.head, .head⟩) .allOk = some s ∧ stackPop s = some (none, s) ∧
      stackTop s = none ∧ ¬ TopAgrees s := by
  intro s
  have htop : stackTop s = none := rfl
  refine ⟨rfl, rfl, htop, ?_⟩
  rintro ⟨data, s', h, -⟩
  rw [htop] at h
  cases h

end DataStructures.Stack
