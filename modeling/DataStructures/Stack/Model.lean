import DataStructures.Lib.Memory
import DataStructures.List.Kdlist

/-!
# `stack/stack.c`

The stack: a list head, and entries linked behind it.  `links` holds the list nodes, that of
the head and those inside the entries; `mem` holds the data of the entries.

`container_of` on the list node of an entry is that entry; on the head it is an address
outside every entry.  A function is `none` where the program reads there, or in an entry it
has freed.  The stack itself is not NULL.
-/

namespace DataStructures.Stack

open Lib Kdlist

/-- The list nodes: the head, or the one in the entry at an address. -/
inductive Node
  | head
  | entry (a : Nat)
  deriving DecidableEq

/-- `stack_t`, with its entries; what an entry holds is a pointer. -/
structure StackT where
  links : Lib.Store Node
  mem : Memory Ptr

/-- The entry a list node is in. -/
def containerOf : Node → Option Nat
  | .head => none
  | .entry a => some a

/-- `stack_create`: the stack, or NULL; `links` is what the memory held before. -/
def stackCreate (links : Lib.Store Node) (outcomes : Outcomes) : Option StackT :=
  if outcomes.first then some ⟨kdlistHeadInit links .head, .empty outcomes.rest⟩ else none

/-- `stack_is_empty`. -/
def stackIsEmpty (s : StackT) : Bool := kdlistIsEmpty s.links .head

/-- `stack_push`. -/
def stackPush (s : StackT) (data : Ptr) : Int × StackT :=
  match s.mem.malloc data with
  | (none, mem) => (-2, { s with mem := mem })
  | (some a, mem) => (0, ⟨kdlistPushHead s.links .head (.entry a), mem⟩)

/-- `stack_pop`. -/
def stackPop (s : StackT) : Option (Ptr × StackT) :=
  match kdlistPopHead s.links .head with
  | (none, links) => some (none, { s with links := links })
  | (some slot, links) => do
      let entry ← containerOf slot
      let data ← s.mem.load (some entry)
      let mem ← s.mem.free (some entry)
      return (data, ⟨links, mem⟩)

/-- `stack_top`.  It writes nothing. -/
def stackTop (s : StackT) : Option Ptr := do
  -- `kdlist_get_head` never returns NULL, so the test for it has no other outcome
  let entry ← containerOf (kdlistGetHead s.links .head)
  s.mem.load (some entry)

end DataStructures.Stack
