import DataStructures.Lib.Memory
import DataStructures.Lib.Runs
import DataStructures.List.Kdlist
import Mathlib.Data.BitVec

/-!
# `htable/htable.c`

The hash table: an array of list heads, and entries linked into the list of their
bucket.  `links` holds the list nodes, those of the heads and those inside the entries;
`mem` holds the keys and values of the entries.

A function is `none` where the program has no defined meaning: it follows a pointer to a
freed entry, or the loop counter of `htable_create` overflows.  The loop of
`htable_delete` runs with fuel.  Pointers the program compares with NULL are options;
the table itself is not NULL.  What `free_key` and `free_value` do is outside the model.
-/

namespace DataStructures.Htable

open Lib Kdlist

/-- `htable_node_t`, without its list node. -/
structure HtableNode (K V : Type) where
  key : K
  value : V

/-- The list nodes: the head of a bucket, or the one in the entry at an address. -/
inductive Node
  | head (i : Nat)
  | entry (a : Nat)
  deriving DecidableEq

/-- The callbacks of a table.  `allocKey` and `allocValue` say what is stored when the
allocation succeeds. -/
structure Callbacks (K V : Type) where
  hash : K → BitVec 32
  cmp : K → K → Int
  allocKey : K → K
  allocValue : V → V

/-- `htable_t`. -/
structure HtableT (K V : Type) where
  capacity : BitVec 32
  size : BitVec 32
  callbacks : Callbacks K V
  links : Lib.Store Node
  mem : Memory (HtableNode K V)

variable {K V : Type}

/-- `__htable_node_create`: the address of the entry, or NULL. -/
def htableNodeCreate (mem : Memory (HtableNode K V)) (callbacks : Callbacks K V) (key : K)
    (value : V) : Option (Ptr × Memory (HtableNode K V)) :=
  -- the fields hold nothing of use until they are written
  match mem.malloc ⟨key, value⟩ with
  | (none, mem) => some (none, mem)
  | (some a, mem) =>
      match mem.ask with
      | (false, mem) => (mem.free (some a)).map (fun mem => (none, mem))
      | (true, mem) => do
          let mem ← mem.store (some a) ⟨callbacks.allocKey key, value⟩
          match mem.ask with
          | (false, mem) => (mem.free (some a)).map (fun mem => (none, mem))
          | (true, mem) => do
              let mem ← mem.store (some a) ⟨callbacks.allocKey key, callbacks.allocValue value⟩
              return (some a, mem)

/-- `htable_create`, on memory whose list nodes hold `links`; NULL if a callback is. -/
def htableCreate (capacity : BitVec 32) (callbacks : Option (Callbacks K V)) (outcomes : Outcomes)
    (links : Lib.Store Node) : Option (Option (HtableT K V)) :=
  match callbacks with
  | none => some none
  | some callbacks =>
      if outcomes.first = false then some none
      else if outcomes.rest.first = false then some none
      -- `i` is an `int` and counts up to `capacity`
      else if 2 ^ 31 ≤ capacity.toNat then none
      else some (some
        { capacity := capacity
          size := 0
          callbacks := callbacks
          links := (List.range capacity.toNat).foldl (fun m i => kdlistHeadInit m (.head i)) links
          mem := Memory.empty outcomes.rest.rest })

/-- `htable_insert`. -/
def htableInsert (htable : HtableT K V) (key : Option K) (value : Option V) :
    Option (Int × HtableT K V) :=
  match key, value with
  | some key, some value =>
      if htable.size = htable.capacity then some (-2, htable)
      else
        let idx := htable.callbacks.hash key
        if idx ≥ htable.capacity then some (-3, htable)
        else do
          match ← htableNodeCreate htable.mem htable.callbacks key value with
          | (none, mem) => return (-4, { htable with mem := mem })
          | (some a, mem) =>
              return (0, { htable with
                mem := mem
                links := kdlistPushTail htable.links (.head idx.toNat) (.entry a) })
  | _, _ => some (-1, htable)

/-- Unlinking the entry of `it` as `htable_delete` does it. -/
def unlink (links : Lib.Store Node) (it : Node) : Lib.Store Node :=
  let links := setPrev links (links it).next (links it).prev
  setNext links (links it).prev (links it).next

/-- `kdlist_for_each_safe` of `htable_delete`, from `it` on, with `aux` already read. -/
def deleteEach (key : K) (head : Node) : Nat → HtableT K V → Node → Node → Option (HtableT K V)
  | 0, _, _, _ => none
  | fuel + 1, htable, it, aux =>
      if it = head then some htable
      else
        match it with
        | .head _ => none  -- not part of an entry
        | .entry a => do
            let node ← htable.mem.load (some a)
            if htable.callbacks.cmp key node.key = 0 then do
              let mem ← htable.mem.free (some a)
              let htable := { htable with links := unlink htable.links it, mem := mem }
              deleteEach key head fuel htable aux (htable.links aux).next
            else deleteEach key head fuel htable aux (htable.links aux).next

/-- `htable_delete`. -/
def htableDelete (fuel : Nat) (htable : HtableT K V) (key : Option K) :
    Option (Int × HtableT K V) :=
  match key with
  | none => some (-1, htable)
  | some key =>
      let idx := htable.callbacks.hash key
      if idx ≥ htable.capacity then some (-2, htable)
      else
        let bucketList := Node.head idx.toNat
        if kdlistIsEmpty htable.links bucketList then some (-3, htable)
        else do
          let it := (htable.links bucketList).next
          let htable ← deleteEach key bucketList fuel htable it (htable.links it).next
          return (-4, htable)

/-- The entry a list node is part of. -/
def readNode (mem : Memory (HtableNode K V)) : Node → Option (HtableNode K V)
  | .head _ => none
  | .entry a => mem.load (some a)

/-- The entries of a bucket, in the order of its list. -/
def bucket (fuel : Nat) (htable : HtableT K V) (i : Nat) : Option (List (HtableNode K V)) := do
  let nodes ← kdlistForEach htable.links (.head i) fuel
  nodes.mapM (readNode htable.mem)

/-- The number of entries in all buckets. -/
def stored (fuel : Nat) (htable : HtableT K V) : Option Nat := do
  let buckets ← (List.range htable.capacity.toNat).mapM (bucket fuel htable)
  return (buckets.map List.length).sum

/-! ### Runs -/

/-- A call.  An insertion comes with what its allocations answer. -/
inductive Op (K V : Type)
  | insert (key : Option K) (value : Option V) (outcomes : Outcomes)
  | delete (key : Option K)

/-- The table with other outcomes of the allocations to come. -/
def HtableT.withOutcomes (htable : HtableT K V) (outcomes : Outcomes) : HtableT K V :=
  { htable with mem := { htable.mem with outcomes := outcomes } }

/-- A call with its result; the loops get as much fuel as there are addresses. -/
def call (htable : HtableT K V) : Op K V → Option (Int × HtableT K V)
  | .insert key value outcomes => htableInsert (htable.withOutcomes outcomes) key value
  | .delete key => htableDelete (htable.mem.next + 1) htable key

/-- The table after a call. -/
def step (htable : HtableT K V) (op : Op K V) : Option (HtableT K V) :=
  (call htable op).map Prod.snd

/-- `htable_create` can return this table. -/
def Created (htable : HtableT K V) : Prop :=
  ∃ capacity callbacks outcomes links,
    htableCreate capacity callbacks outcomes links = some (some htable)

/-- The tables that insertions and deletions reach. -/
def Reachable (htable : HtableT K V) : Prop :=
  ∃ htable₀, Created htable₀ ∧ Runs.Reachable step htable₀ htable

end DataStructures.Htable
