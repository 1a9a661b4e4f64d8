import DataStructures.Lib.Runs
import DataStructures.List.Kslist
import Mathlib.Data.BitVec

/-!
# `synchronization/rcu.c`

The RCU context under any interleaving of its threads.  An action begins a call or makes
the next access of one: a read of `size`, an access to a counter, a shared pointer or a
list node, an allocation, or a region that holds the mutex.  A function with one access is
one action.

A step is `none` where the program has no defined meaning: an assertion fails, a slot is
outside the arrays, a freed node is read.  Addresses of nodes are handed out one after the
other.  Threads use the slot they were given; `exchange` is the atomic exchange with which
the callers of the library replace a shared pointer.

Some fields are history and no function of the program reads them: how often a shared
pointer has been written (`writes`), what a thread has read in the section it is in
(`loads`), and which callbacks have been registered and invoked.
-/

namespace DataStructures.Rcu

open Kslist

/-- `MAX_THREADS`. -/
def maxThreads : Nat := 64

/-- The list nodes: the head `cbs`, or the one in the `rcu_node_t` at an address. -/
inductive Node
  | cbs
  | node (a : Nat)
  deriving DecidableEq

/-- A `void *`. -/
abbrev Pointer (V : Type) := Option V

/-- The functions, and the exchange of a shared pointer. -/
inductive Call (P V F : Type)
  | registerThread
  | readLock
  | readUnlock
  | assignPointer (p : P) (new : Pointer V)
  | dereference (p : P)
  | exchange (p : P) (new : Pointer V)
  | synchronize
  | call (fn : F) (ptr : Pointer V)
  | cleanup

/-- The access a thread makes next. -/
inductive Pc (V F : Type)
  | idle
  /-- `rcu_read_lock` and `rcu_read_unlock`: the assertion, then the counter -/
  | lockAssert (id : Nat)
  | lockAdd (id : Nat)
  | unlockAssert (id : Nat)
  | unlockSub (id : Nat)
  /-- `rcu_synchronize`: the test of the loop, then the counter -/
  | syncSize (i : Nat)
  | syncCnt (i : Nat)
  /-- `rcu_call`: the allocation, then the mutex -/
  | callMalloc (fn : F) (ptr : Pointer V)
  | callPush (a : Nat)
  /-- `rcu_cleanup` after the mutex: `_it = _it->next`, the callback, `free` -/
  | cleanupNext (it tmp : Option Node)
  | cleanupInvoke (it tmp : Option Node)
  | cleanupFree (it tmp : Option Node)

/-- A callback: the address of its `rcu_node_t`, its function and its argument. -/
abbrev Callback (V F : Type) := Nat × F × Pointer V

/-- A thread: where it is, the slot it has been given, the pointer it has read or exchanged
last, and the reads in its section, each with the number of writes before it. -/
structure Thread (P V F : Type) where
  pc : Pc V F
  slot : Option Nat
  got : Pointer V
  loads : List (P × Nat × Pointer V)

/-- `rcu_ctx_t`, the memory of the callbacks and the shared pointers, with the threads. -/
structure State (ι P V F : Type) where
  size : Nat
  threadsIdx : Nat → Option ι
  threadsCnt : Nat → BitVec 32
  links : Store Node
  nodes : Nat → Option (F × Pointer V)
  next : Nat
  ptr : P → Pointer V
  writes : P → Nat
  registered : List (Callback V F)
  invoked : List (Callback V F)
  thread : ι → Thread P V F

/-- A thread begins a call, or makes its next access; `ok`: `malloc` succeeds. -/
inductive Act (ι P V F : Type)
  | call (i : ι) (f : Call P V F)
  | step (i : ι) (ok : Bool)

/-- `rcu_create`, with threads that have not called anything. -/
def rcuCreate {ι P V F : Type} (ptr : P → Pointer V) : State ι P V F where
  size := 0
  threadsIdx := fun _ => none
  threadsCnt := fun _ => 0
  links := fun
    | .cbs => some none
    | .node _ => none
  nodes := fun _ => none
  next := 0
  ptr := ptr
  writes := fun _ => 0
  registered := []
  invoked := []
  thread := fun _ => { pc := .idle, slot := none, got := none, loads := [] }

variable {ι P V F : Type} [DecidableEq ι]

namespace State

variable (s : State ι P V F) (i : ι)

/-- Thread `i` becomes `t`. -/
def put (t : Thread P V F) : State ι P V F := { s with thread := Function.update s.thread i t }

/-- Thread `i` goes on at `pc`. -/
def goto (pc : Pc V F) : State ι P V F := s.put i { s.thread i with pc := pc }

omit [DecidableEq ι] in
/-- Thread `i` is in a read-side section: its counter is above 0. -/
def inSection : Bool :=
  (s.thread i).slot.any (fun id => 0 < (s.threadsCnt id).toInt)

end State

@[simp] theorem put_thread_self (s : State ι P V F) (i : ι) (t : Thread P V F) :
    (s.put i t).thread i = t := Function.update_self ..

@[simp] theorem put_thread_of_ne (s : State ι P V F) {i j : ι} (t : Thread P V F) (h : j ≠ i) :
    (s.put i t).thread j = s.thread j := Function.update_of_ne h ..

theorem goto_pc_self (s : State ι P V F) (i : ι) (pc : Pc V F) :
    ((s.goto i pc).thread i).pc = pc := by
  rw [State.goto, put_thread_self]

/-- `rcu_register_thread`: the slot the thread has, or the next one. -/
def rcuRegisterThread (s : State ι P V F) (i : ι) : Option (State ι P V F) :=
  match (List.range s.size).find? (fun j => s.threadsIdx j = some i) with
  | some j => some (s.put i { s.thread i with slot := some j })
  | none =>
      if s.size < maxThreads then
        some ({ s with
          threadsIdx := Function.update s.threadsIdx s.size (some i)
          size := s.size + 1 }.put i { s.thread i with slot := some s.size })
      else none

/-- Counter `id`, that of thread `i`, becomes `c`.  A section that is not open has no
reads. -/
def setCnt (s : State ι P V F) (i : ι) (id : Nat) (c : BitVec 32) : Option (State ι P V F) :=
  if id < maxThreads then
    some ({ s with threadsCnt := Function.update s.threadsCnt id c }.put i
      { s.thread i with
        pc := .idle
        loads := if 0 < c.toInt then (s.thread i).loads else [] })
  else none

/-- The assertion of `rcu_read_lock` and `rcu_read_unlock`. -/
def assertSlot (s : State ι P V F) (i : ι) (id : Nat) (pc : Pc V F) : Option (State ι P V F) :=
  if id < s.size then some (s.goto i pc) else none

/-- `rcu_dereference`. -/
def rcuDereference (s : State ι P V F) (i : ι) (p : P) : State ι P V F :=
  s.put i { s.thread i with
    got := s.ptr p
    loads := if s.inSection i then (p, s.writes p, s.ptr p) :: (s.thread i).loads
      else (s.thread i).loads }

/-- `rcu_synchronize`, the test `i < rcu->size`: the loop ends without a reader. -/
def rcuSynchronizeSize (s : State ι P V F) (i : ι) (k : Nat) : Option (State ι P V F) :=
  if k < s.size then some (s.goto i (.syncCnt k)) else some (s.goto i .idle)

/-- `rcu_synchronize`, the counter: with a reader the loop begins again. -/
def rcuSynchronizeCnt (s : State ι P V F) (i : ι) (k : Nat) : Option (State ι P V F) :=
  if k < maxThreads then
    if 0 < (s.threadsCnt k).toInt then some (s.goto i (.syncSize 0))
    else some (s.goto i (.syncSize (k + 1)))
  else none

/-- `rcu_call`, the allocation; without memory it returns. -/
def rcuCallMalloc (s : State ι P V F) (i : ι) (fn : F) (ptr : Pointer V) (ok : Bool) :
    Option (State ι P V F) :=
  if ok then
    some ({ s with
      links := Function.update s.links (.node s.next) (some none)
      nodes := Function.update s.nodes s.next (some (fn, ptr))
      next := s.next + 1 }.goto i (.callPush s.next))
  else some (s.goto i .idle)

/-- `rcu_call`, the region with the mutex. -/
def rcuCallPush (s : State ι P V F) (i : ι) (a : Nat) : Option (State ι P V F) := do
  let links ← kslistPushHead s.links .cbs (.node a)
  let callback ← s.nodes a
  return { s with links := links, registered := (a, callback) :: s.registered }.goto i .idle

/-- `rcu_cleanup`, the region with the mutex. -/
def rcuCleanup (s : State ι P V F) (i : ι) : Option (State ι P V F) := do
  let it ← kslistGetHead s.links .cbs
  let links ← kslistHeadInit s.links .cbs
  return { s with links := links }.goto i (.cleanupNext it it)

/-- `rcu_cleanup`, the test of the loop and `_it = _it->next`. -/
def rcuCleanupNext (s : State ι P V F) (i : ι) (it tmp : Option Node) :
    Option (State ι P V F) :=
  match it with
  | none => some (s.goto i .idle)
  | some x => do
      let next ← s.links x
      return s.goto i (.cleanupInvoke next tmp)

/-- `rcu_cleanup`, the callback of the node `_tmp` is in. -/
def rcuCleanupInvoke (s : State ι P V F) (i : ι) (it tmp : Option Node) :
    Option (State ι P V F) :=
  match tmp with
  | some (.node a) => do
      let callback ← s.nodes a
      return { s with invoked := (a, callback) :: s.invoked }.goto i (.cleanupFree it tmp)
  | _ => none

/-- `rcu_cleanup`, `free` and `_tmp = _it`. -/
def rcuCleanupFree (s : State ι P V F) (i : ι) (it tmp : Option Node) :
    Option (State ι P V F) :=
  match tmp with
  | some (.node a) =>
      if (s.nodes a).isSome then
        some ({ s with
          links := Function.update s.links (.node a) none
          nodes := Function.update s.nodes a none }.goto i (.cleanupNext it it))
      else none
  | _ => none

/-- A thread makes its next access. -/
def advance (s : State ι P V F) (i : ι) (ok : Bool) : Pc V F → Option (State ι P V F)
  | .idle => none
  | .lockAssert id => assertSlot s i id (.lockAdd id)
  | .lockAdd id => setCnt s i id (s.threadsCnt id + 1)
  | .unlockAssert id => assertSlot s i id (.unlockSub id)
  | .unlockSub id => setCnt s i id (s.threadsCnt id - 1)
  | .syncSize k => rcuSynchronizeSize s i k
  | .syncCnt k => rcuSynchronizeCnt s i k
  | .callMalloc fn ptr => rcuCallMalloc s i fn ptr ok
  | .callPush a => rcuCallPush s i a
  | .cleanupNext it tmp => rcuCleanupNext s i it tmp
  | .cleanupInvoke it tmp => rcuCleanupInvoke s i it tmp
  | .cleanupFree it tmp => rcuCleanupFree s i it tmp

/-! ### The functions that may have no step -/

section Inversion

variable {s s' : State ι P V F} {i : ι} {it tmp : Option Node} {a : Nat}

theorem rcuCallPush_eq_some (h : rcuCallPush s i a = some s') : ∃ links callback,
    kslistPushHead s.links .cbs (.node a) = some links ∧ s.nodes a = some callback ∧
    s' = { s with links := links, registered := (a, callback) :: s.registered }.goto i .idle := by
  simp only [rcuCallPush, Option.bind_eq_bind, Option.bind_eq_some_iff] at h
  obtain ⟨links, hl, callback, hc, h⟩ := h
  exact ⟨links, callback, hl, hc, (Option.some.inj h).symm⟩

theorem rcuCleanup_eq_some (h : rcuCleanup s i = some s') : ∃ it,
    s.links .cbs = some it ∧ s' =
      { s with links := Function.update s.links .cbs (some none) }.goto i (.cleanupNext it it) := by
  simp only [rcuCleanup, Option.bind_eq_bind, Option.bind_eq_some_iff] at h
  obtain ⟨it, hit, links, hl, h⟩ := h
  have hit : s.links .cbs = some it := hit
  rw [kslistHeadInit, setNext, if_pos (by rw [hit]; rfl)] at hl
  obtain rfl := Option.some.inj hl
  exact ⟨it, hit, (Option.some.inj h).symm⟩

theorem rcuCleanupNext_eq_some (h : rcuCleanupNext s i it tmp = some s') :
    it = none ∧ s' = s.goto i .idle ∨ ∃ x next, it = some x ∧ s.links x = some next ∧
      s' = s.goto i (.cleanupInvoke next tmp) := by
  cases it with
  | none => exact Or.inl ⟨rfl, (Option.some.inj h).symm⟩
  | some x =>
    obtain ⟨next, hn, h⟩ := Option.bind_eq_some_iff.mp h
    exact Or.inr ⟨x, next, rfl, hn, (Option.some.inj h).symm⟩

theorem rcuCleanupInvoke_eq_some (h : rcuCleanupInvoke s i it tmp = some s') :
    ∃ a callback, tmp = some (.node a) ∧ s.nodes a = some callback ∧
      s' = { s with invoked := (a, callback) :: s.invoked }.goto i (.cleanupFree it tmp) := by
  match tmp, h with
  | some (.node a), h =>
    obtain ⟨callback, hc, h⟩ := Option.bind_eq_some_iff.mp h
    exact ⟨a, callback, rfl, hc, (Option.some.inj h).symm⟩

theorem rcuCleanupFree_eq_some (h : rcuCleanupFree s i it tmp = some s') :
    ∃ a, tmp = some (.node a) ∧ (s.nodes a).isSome ∧ s' = { s with
      links := Function.update s.links (.node a) none
      nodes := Function.update s.nodes a none }.goto i (.cleanupNext it it) := by
  match tmp, h with
  | some (.node a), h =>
    rw [rcuCleanupFree] at h
    split at h
    · exact ⟨a, rfl, ‹_›, (Option.some.inj h).symm⟩
    · exact nomatch h

/-- What the next access of a thread can do. -/
inductive Advance (s : State ι P V F) (i : ι) : Pc V F → State ι P V F → Prop
  | lockAssert {id : Nat} : id < s.size → Advance s i (.lockAssert id) (s.goto i (.lockAdd id))
  | unlockAssert {id : Nat} : id < s.size →
      Advance s i (.unlockAssert id) (s.goto i (.unlockSub id))
  | lockAdd {id : Nat} {s' : State ι P V F} : setCnt s i id (s.threadsCnt id + 1) = some s' →
      Advance s i (.lockAdd id) s'
  | unlockSub {id : Nat} {s' : State ι P V F} : setCnt s i id (s.threadsCnt id - 1) = some s' →
      Advance s i (.unlockSub id) s'
  | scan {k : Nat} : k < s.size → Advance s i (.syncSize k) (s.goto i (.syncCnt k))
  | scanEnd {k : Nat} : s.size ≤ k → Advance s i (.syncSize k) (s.goto i .idle)
  | scanAgain {k : Nat} : 0 < (s.threadsCnt k).toInt →
      Advance s i (.syncCnt k) (s.goto i (.syncSize 0))
  | scanNext {k : Nat} : ¬ 0 < (s.threadsCnt k).toInt →
      Advance s i (.syncCnt k) (s.goto i (.syncSize (k + 1)))
  | malloc {fn : F} {ptr : Pointer V} : Advance s i (.callMalloc fn ptr) ({ s with
      links := Function.update s.links (.node s.next) (some none)
      nodes := Function.update s.nodes s.next (some (fn, ptr))
      next := s.next + 1 }.goto i (.callPush s.next))
  | noMemory {fn : F} {ptr : Pointer V} : Advance s i (.callMalloc fn ptr) (s.goto i .idle)
  | push {n : Nat} {links : Store Node} {callback : F × Pointer V} :
      kslistPushHead s.links .cbs (.node n) = some links → s.nodes n = some callback →
      Advance s i (.callPush n) ({ s with
        links := links
        registered := (n, callback) :: s.registered }.goto i .idle)
  | last {tmp : Option Node} : Advance s i (.cleanupNext none tmp) (s.goto i .idle)
  | next {x : Node} {tmp next : Option Node} : s.links x = some next →
      Advance s i (.cleanupNext (some x) tmp) (s.goto i (.cleanupInvoke next tmp))
  | invoke {it : Option Node} {n : Nat} {callback : F × Pointer V} : s.nodes n = some callback →
      Advance s i (.cleanupInvoke it (some (.node n)))
        ({ s with invoked := (n, callback) :: s.invoked }.goto i (.cleanupFree it (some (.node n))))
  | free {it : Option Node} {n : Nat} : (s.nodes n).isSome →
      Advance s i (.cleanupFree it (some (.node n))) ({ s with
        links := Function.update s.links (.node n) none
        nodes := Function.update s.nodes n none }.goto i (.cleanupNext it it))

/-- **Every access is one of these.** -/
theorem advance_cases {ok : Bool} {pc : Pc V F} (h : advance s i ok pc = some s') :
    Advance s i pc s' := by
  cases pc with
  | idle => cases h
  | lockAssert id =>
    rw [advance, assertSlot] at h
    split at h
    · exact Option.some.inj h ▸ .lockAssert ‹_›
    · cases h
  | unlockAssert id =>
    rw [advance, assertSlot] at h
    split at h
    · exact Option.some.inj h ▸ .unlockAssert ‹_›
    · cases h
  | lockAdd id => exact .lockAdd h
  | unlockSub id => exact .unlockSub h
  | syncSize k =>
    rw [advance, rcuSynchronizeSize] at h
    split at h
    · exact Option.some.inj h ▸ .scan ‹_›
    · exact Option.some.inj h ▸ .scanEnd (Nat.le_of_not_lt ‹_›)
  | syncCnt k =>
    rw [advance, rcuSynchronizeCnt] at h
    split at h
    · split at h
      · exact Option.some.inj h ▸ .scanAgain ‹_›
      · exact Option.some.inj h ▸ .scanNext ‹_›
    · cases h
  | callMalloc fn ptr =>
    cases ok with
    | true => exact Option.some.inj h ▸ .malloc
    | false => exact Option.some.inj h ▸ .noMemory
  | callPush n =>
    obtain ⟨links, callback, hlinks, hnode, rfl⟩ := rcuCallPush_eq_some h
    exact .push hlinks hnode
  | cleanupNext it tmp =>
    obtain ⟨rfl, rfl⟩ | ⟨x, next, rfl, hnext, rfl⟩ := rcuCleanupNext_eq_some h
    · exact .last
    · exact .next hnext
  | cleanupInvoke it tmp =>
    obtain ⟨n, callback, rfl, hnode, rfl⟩ := rcuCleanupInvoke_eq_some h
    exact .invoke hnode
  | cleanupFree it tmp =>
    obtain ⟨n, rfl, hnode, rfl⟩ := rcuCleanupFree_eq_some h
    exact .free hnode

end Inversion

variable [DecidableEq P]

/-- `rcu_assign_pointer`. -/
def rcuAssignPointer (s : State ι P V F) (p : P) (new : Pointer V) : State ι P V F :=
  { s with
    ptr := Function.update s.ptr p new
    writes := Function.update s.writes p (s.writes p + 1) }

/-- The atomic exchange: it reads what it overwrites. -/
def exchange (s : State ι P V F) (i : ι) (p : P) (new : Pointer V) : State ι P V F :=
  (rcuAssignPointer s p new).put i { s.thread i with got := s.ptr p }

/-- A thread begins a call. -/
def begin (s : State ι P V F) (i : ι) : Call P V F → Option (State ι P V F)
  | .registerThread => rcuRegisterThread s i
  | .readLock => (s.thread i).slot.map (fun id => s.goto i (.lockAssert id))
  | .readUnlock => (s.thread i).slot.map (fun id => s.goto i (.unlockAssert id))
  | .assignPointer p new => some (rcuAssignPointer s p new)
  | .dereference p => some (rcuDereference s i p)
  | .exchange p new => some (exchange s i p new)
  | .synchronize => some (s.goto i (.syncSize 0))
  | .call fn ptr => some (s.goto i (.callMalloc fn ptr))
  | .cleanup => rcuCleanup s i

/-- The thread is in no call. -/
def Pc.isIdle : Pc V F → Bool
  | .idle => true
  | _ => false

theorem isIdle_iff {pc : Pc V F} : pc.isIdle = true ↔ pc = .idle := by
  cases pc <;> simp [Pc.isIdle]

/-- One action. -/
def step (s : State ι P V F) : Act ι P V F → Option (State ι P V F)
  | .call i f => if (s.thread i).pc.isIdle then begin s i f else none
  | .step i ok => advance s i ok (s.thread i).pc

theorem step_call {s s' : State ι P V F} {i : ι} {f : Call P V F}
    (h : step s (.call i f) = some s') : (s.thread i).pc = .idle ∧ begin s i f = some s' := by
  rw [step] at h
  split at h
  · exact ⟨isIdle_iff.mp ‹_›, h⟩
  · cases h

/-- The states the threads can reach, from any values of the shared pointers. -/
def Reachable (s : State ι P V F) : Prop := ∃ ptr, Lib.Runs.Reachable step (rcuCreate ptr) s

end DataStructures.Rcu
