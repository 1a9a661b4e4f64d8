import DataStructures.Lib.Memory

/-!
# `list/singly_linked_list.c`

The singly linked list with its data: the four insertions and the four deletions, as they
compute on a memory of nodes.  `none` as the result means that a null or dangling pointer has
been followed.

A datum is its value; `released` are the data that have been given to `free`.  The compare
callback is any function.  Whether `malloc` succeeds is taken from the outcomes in the memory,
and a loop takes no more rounds than addresses have ever been handed out.

The four functions that look for a reference run through the list by the same loop, with one,
two or three cursors: `seek` moves all three.
-/

namespace DataStructures.Slist

open Lib

variable {D : Type}

/-- `slist_t`. -/
structure SlistT (D : Type) where
  data : D
  next : Ptr

/-- The memory the nodes live in, with the data that have been freed. -/
structure Heap (D : Type) where
  mem : Memory (SlistT D)
  released : List D

/-- `p->next = next`. -/
def setNext (h : Heap D) (p next : Ptr) : Option (Heap D) := do
  let node ← h.mem.load p
  let mem ← h.mem.store p { node with next := next }
  return { h with mem := mem }

/-- `free(p->data)`, and `free(p)`. -/
def release (h : Heap D) (p : Ptr) : Option (Heap D) := do
  let node ← h.mem.load p
  let mem ← h.mem.free p
  return ⟨mem, h.released ++ [node.data]⟩

/-- `__slist_node_create`. -/
def slistNodeCreate (h : Heap D) (data : D) : Ptr × Heap D :=
  ((h.mem.malloc ⟨data, none⟩).1, { h with mem := (h.mem.malloc ⟨data, none⟩).2 })

/-- The loop to the first node on which the callback returns 0, from `it` on: `pprev`, `prev`
and `it` where it ends. -/
def seek (cmp : D → D → Int) (h : Heap D) (ref : D) : Nat → Ptr → Ptr → Ptr →
    Option (Ptr × Ptr × Ptr)
  | 0, _, _, _ => none
  | _ + 1, pprev, prev, none => some (pprev, prev, none)
  | rounds + 1, pprev, prev, some a => do
      let node ← h.mem.load (some a)
      if cmp node.data ref = 0 then return (pprev, prev, some a)
      else seek cmp h ref rounds prev (some a) node.next

/-- The loop to the last node: `prev` and `it` where it ends. -/
def seekLast (h : Heap D) : Nat → Ptr → Ptr → Option (Ptr × Ptr)
  | 0, _, _ => none
  | rounds + 1, prev, it => do
      let node ← h.mem.load it
      if node.next.isSome then seekLast h rounds it node.next else return (prev, it)

/-- More rounds than a list has nodes. -/
def Heap.rounds (h : Heap D) : Nat := h.mem.next + 1

/-! ### Insertions -/

/-- `slist_insert_first`: what it returns, `*head` and the memory. -/
def slistInsertFirst (h : Heap D) (head : Ptr) (data : D) : Option (Int × Ptr × Heap D) := do
  let (node, h) := slistNodeCreate h data
  if node.isNone then return (-1, head, h)
  let h ← setNext h node head
  return (0, node, h)

/-- `slist_insert_after`. -/
def slistInsertAfter (cmp : D → D → Int) (h : Heap D) (head : Ptr) (prevData newData : D) :
    Option (Int × Heap D) := do
  if head.isNone then return (-1, h)
  let (_, _, it) ← seek cmp h prevData h.rounds none none head
  if it.isNone then return (-2, h)
  let (newNode, h) := slistNodeCreate h newData
  if newNode.isNone then return (-3, h)
  let node ← h.mem.load it
  let h ← setNext h newNode node.next
  let h ← setNext h it newNode
  return (0, h)

/-- `slist_insert_before`. -/
def slistInsertBefore (cmp : D → D → Int) (h : Heap D) (head : Ptr) (afterData newData : D) :
    Option (Int × Ptr × Heap D) := do
  if head.isNone then return (-1, head, h)
  let (_, prev, it) ← seek cmp h afterData h.rounds none none head
  if it.isNone then return (-2, head, h)
  let (newNode, h) := slistNodeCreate h newData
  if newNode.isNone then return (-3, head, h)
  let h ← setNext h newNode it
  if prev.isNone then return (0, newNode, h)
  else
    let h ← setNext h prev newNode
    return (0, head, h)

/-- `slist_insert_last`. -/
def slistInsertLast (h : Heap D) (head : Ptr) (data : D) : Option (Int × Ptr × Heap D) := do
  let (node, h) := slistNodeCreate h data
  if node.isNone then return (-1, head, h)
  if head.isNone then return (0, node, h)
  let (_, it) ← seekLast h h.rounds none head
  let h ← setNext h node none
  let h ← setNext h it node
  return (0, head, h)

/-! ### Deletions -/

/-- `slist_delete_first`. -/
def slistDeleteFirst (h : Heap D) (head : Ptr) : Option (Int × Ptr × Heap D) := do
  if head.isNone then return (-1, head, h)
  let it ← h.mem.load head
  let h ← release h head
  return (0, it.next, h)

/-- `slist_delete_after`. -/
def slistDeleteAfter (cmp : D → D → Int) (h : Heap D) (head : Ptr) (prevData : D) :
    Option (Int × Heap D) := do
  if head.isNone then return (-1, h)
  let (_, _, it) ← seek cmp h prevData h.rounds none none head
  if it.isNone then return (-2, h)
  let itNode ← h.mem.load it
  if itNode.next.isNone then return (-2, h)
  let node ← h.mem.load itNode.next
  let h ← setNext h it node.next
  let h ← release h itNode.next
  return (0, h)

/-- `slist_delete_before`. -/
def slistDeleteBefore (cmp : D → D → Int) (h : Heap D) (head : Ptr) (afterData : D) :
    Option (Int × Ptr × Heap D) := do
  if head.isNone then return (-1, head, h)
  let (pprev, prev, it) ← seek cmp h afterData h.rounds none none head
  if it.isNone || prev.isNone then return (-2, head, h)
  if pprev.isNone then
    let h ← release h prev
    return (0, it, h)
  else
    let h ← setNext h pprev it
    let h ← release h prev
    return (0, head, h)

/-- `slist_delete_last`. -/
def slistDeleteLast (h : Heap D) (head : Ptr) : Option (Int × Ptr × Heap D) := do
  if head.isNone then return (-1, head, h)
  let (prev, it) ← seekLast h h.rounds none head
  if prev.isNone then
    let h ← release h it
    return (0, none, h)
  else
    let h ← setNext h prev none
    let h ← release h it
    return (0, head, h)

end DataStructures.Slist
