import DataStructures.Lib.Memory
import DataStructures.Lib.Comparison

/-!
# `tree/avl_tree.c`

The AVL tree as it computes, on a memory of nodes.  Every assignment through a
pointer is a `store`, every node read is a `load`, and `none` as the result of a
function means that it has followed a null or dangling pointer, or has called
`_cmp` with `NULL`.

A datum is its value: `_alloc` copies it and `_free` leaves no trace, `none` is
`NULL`.  `_cmp` is a `Comparison`.  What `malloc` and `_alloc` answer is taken from
the outcomes in the memory.  The recursive functions take a depth to which they may
recurse; the public ones give them the number of addresses ever handed out, which no
path of distinct nodes exceeds.  The callbacks are never null.  The printing
functions are in `LevelOrder` and `Prints`.
-/

namespace DataStructures.Avl

open Lib

variable {K : Type}

/-- `avl_tree_node`. -/
structure AvlTreeNode (K : Type) where
  data : Option K
  left : Ptr
  right : Ptr
  height : Int

/-- The memory the nodes live in. -/
abbrev Heap (K : Type) := Memory (AvlTreeNode K)

/-! ### Nodes -/

/-- `__avl_node_get_height`. -/
def avlNodeGetHeight (m : Heap K) : Ptr → Option Int
  | none => some 0
  | some a => do
      let node ← m.load (some a)
      return node.height

/-- `__avl_node_get_balance`. -/
def avlNodeGetBalance (m : Heap K) : Ptr → Option Int
  | none => some 0
  | some a => do
      let node ← m.load (some a)
      let left ← avlNodeGetHeight m node.left
      let right ← avlNodeGetHeight m node.right
      return left - right

/-- `__avl_node_update_height`. -/
def avlNodeUpdateHeight (m : Heap K) (p : Ptr) : Option (Heap K) := do
  let node ← m.load p
  let left ← avlNodeGetHeight m node.left
  let right ← avlNodeGetHeight m node.right
  m.store p { node with height := 1 + max left right }

/-- `__avl_node_is_leaf`. -/
def avlNodeIsLeaf (node : AvlTreeNode K) : Bool := !(node.left.isSome || node.right.isSome)

/-- `__avl_node_has_one_child`. -/
def avlNodeHasOneChild (node : AvlTreeNode K) : Bool :=
  (node.left.isSome && !node.right.isSome) || (!node.left.isSome && node.right.isSome)

/-- `__avl_node_get_min_node`. -/
def avlNodeGetMinNode : Nat → Heap K → Ptr → Option Ptr
  | 0, _, _ => none
  | depth + 1, m, p => do
      let node ← m.load p
      if node.left.isSome then avlNodeGetMinNode depth m node.left else return p

/-- `__avl_node_create`. -/
def avlNodeCreate (m : Heap K) (data : K) : Option (Ptr × Heap K) := do
  let (node, m) := m.malloc ⟨none, none, none, 0⟩
  if node.isNone then return (none, m)
  let (ok, m) := m.ask
  if !ok then
    let m ← m.free node
    return (none, m)
  let m ← m.store node ⟨some data, none, none, 1⟩
  return (node, m)

/-- `__avl_node_destroy`. -/
def avlNodeDestroy (m : Heap K) (p : Ptr) : Option (Heap K) := do
  let _ ← m.load p
  m.free p

/-- `__avl_node_copy_content`. -/
def avlNodeCopyContent (m : Heap K) (dst src : Ptr) : Option (Int × Heap K) := do
  let s ← m.load src
  let m ← m.store dst s
  let (ok, m) := m.ask
  let data := if ok then s.data else none
  let m ← m.store dst { s with data := data }
  return (if data.isNone then -1 else 0, m)

/-- `__avl_node_copy_data`. -/
def avlNodeCopyData (m : Heap K) (dst src : Ptr) : Option (Int × Heap K) := do
  let d ← m.load dst
  let s ← m.load src
  let (ok, m) := m.ask
  let data := if ok then s.data else none
  let m ← m.store dst { d with data := data }
  return (if data.isNone then -1 else 0, m)

/-! ### Balancing -/

/-- `node->left = p`. -/
def setLeft (m : Heap K) (node p : Ptr) : Option (Heap K) := do
  let n ← m.load node
  m.store node { n with left := p }

/-- `node->right = p`. -/
def setRight (m : Heap K) (node p : Ptr) : Option (Heap K) := do
  let n ← m.load node
  m.store node { n with right := p }

/-- `__avl_tree_left_rotate`. -/
def avlTreeLeftRotate (m : Heap K) (x : Ptr) : Option (Ptr × Heap K) := do
  let nx ← m.load x
  let y := nx.right
  let ny ← m.load y
  let yL := ny.left
  let m ← setLeft m y x
  let m ← setRight m x yL
  let m ← avlNodeUpdateHeight m x
  let m ← avlNodeUpdateHeight m y
  return (y, m)

/-- `__avl_tree_right_rotate`. -/
def avlTreeRightRotate (m : Heap K) (x : Ptr) : Option (Ptr × Heap K) := do
  let nx ← m.load x
  let y := nx.left
  let ny ← m.load y
  let yR := ny.right
  let m ← setRight m y x
  let m ← setLeft m x yR
  let m ← avlNodeUpdateHeight m x
  let m ← avlNodeUpdateHeight m y
  return (y, m)

/-- `__avl_tree_balance`. -/
def avlTreeBalance (m : Heap K) (node : Ptr) : Option (Ptr × Heap K) := do
  let m ← avlNodeUpdateHeight m node
  let balance ← avlNodeGetBalance m node
  let n ← m.load node
  if balance < -1 then
    if 0 < (← avlNodeGetBalance m n.right) then
      let (right, m) ← avlTreeRightRotate m n.right
      let m ← setRight m node right
      avlTreeLeftRotate m node
    else avlTreeLeftRotate m node
  else if 1 < balance then
    if (← avlNodeGetBalance m n.left) < 0 then
      let (left, m) ← avlTreeLeftRotate m n.left
      let m ← setLeft m node left
      avlTreeRightRotate m node
    else avlTreeRightRotate m node
  else return (node, m)

/-! ### Helpers -/

/-- `__avl_tree_insert`. -/
def avlTreeInsertHelper (c : Comparison K) :
    Nat → Heap K → Ptr → K → Option (Ptr × Heap K)
  | 0, _, _, _ => none
  | _ + 1, m, none, data => avlNodeCreate m data
  | depth + 1, m, some a, data => do
      let n ← m.load (some a)
      let d ← n.data
      if c.cmp data d < 0 then
        let (left, m) ← avlTreeInsertHelper c depth m n.left data
        let m ← setLeft m (some a) left
        if left.isNone then return (none, m)
        avlTreeBalance m (some a)
      else if 0 < c.cmp data d then
        let (right, m) ← avlTreeInsertHelper c depth m n.right data
        let m ← setRight m (some a) right
        if right.isNone then return (none, m)
        avlTreeBalance m (some a)
      else return (some a, m)

/-- `__avl_tree_delete`. -/
def avlTreeDeleteHelper (c : Comparison K) :
    Nat → Heap K → Ptr → K → Option (Ptr × Heap K)
  | 0, _, _, _ => none
  | _ + 1, m, none, _ => some (none, m)
  | depth + 1, m, some a, data => do
      let n ← m.load (some a)
      let d ← n.data
      if c.cmp data d < 0 then
        let (left, m) ← avlTreeDeleteHelper c depth m n.left data
        let m ← setLeft m (some a) left
        avlTreeBalance m (some a)
      else if 0 < c.cmp data d then
        let (right, m) ← avlTreeDeleteHelper c depth m n.right data
        let m ← setRight m (some a) right
        avlTreeBalance m (some a)
      else if avlNodeIsLeaf n then
        let m ← avlNodeDestroy m (some a)
        return (none, m)
      else if avlNodeHasOneChild n then
        let tmp := if n.left.isSome then n.left else n.right
        let (ret, m) ← avlNodeCopyContent m (some a) tmp
        if ret ≠ 0 then return (none, m)
        let m ← avlNodeDestroy m tmp
        avlTreeBalance m (some a)
      else
        let tmp ← avlNodeGetMinNode depth m n.right
        let (ret, m) ← avlNodeCopyData m (some a) tmp
        if ret ≠ 0 then return (none, m)
        let t ← m.load tmp
        let key ← t.data
        let (right, m) ← avlTreeDeleteHelper c depth m n.right key
        let m ← setRight m (some a) right
        avlTreeBalance m (some a)

/-- `__avl_tree_lookup`. -/
def avlTreeLookupHelper (c : Comparison K) : Nat → Heap K → Ptr → K → Option Int
  | 0, _, _, _ => none
  | _ + 1, _, none, _ => some 0
  | depth + 1, m, some a, data => do
      let n ← m.load (some a)
      let d ← n.data
      if c.cmp data d < 0 then avlTreeLookupHelper c depth m n.left data
      else if 0 < c.cmp data d then avlTreeLookupHelper c depth m n.right data
      else return 1

/-- `__avl_tree_destroy`. -/
def avlTreeDestroyHelper : Nat → Heap K → Ptr → Option (Heap K)
  | 0, _, _ => none
  | _ + 1, m, none => some m
  | depth + 1, m, some a => do
      let n ← m.load (some a)
      let m ← avlTreeDestroyHelper depth m n.left
      let n ← m.load (some a)
      let m ← avlTreeDestroyHelper depth m n.right
      avlNodeDestroy m (some a)

/-! ### The public functions -/

/-- `avl_tree_entry`, with the memory its nodes live in. -/
structure AvlTreeEntry (K : Type) where
  mem : Heap K
  root : Ptr

/-- A depth no path of nodes exceeds. -/
def AvlTreeEntry.depth (entry : AvlTreeEntry K) : Nat := entry.mem.next + 1

/-- `avl_tree_create`, in a memory without nodes. -/
def avlTreeCreate (o : Outcomes) : Option (AvlTreeEntry K) :=
  if !o.first then none else some ⟨Memory.empty o.rest, none⟩

/-- `avl_tree_destroy`; what remains of the memory. -/
def avlTreeDestroy (entry : AvlTreeEntry K) : Option (Heap K) :=
  avlTreeDestroyHelper entry.depth entry.mem entry.root

/-- `avl_tree_insert`. -/
def avlTreeInsert (c : Comparison K) (entry : AvlTreeEntry K) (data : Option K) :
    Option (Int × AvlTreeEntry K) :=
  match data with
  | none => some (-1, entry)
  | some data => do
      let (node, m) ← avlTreeInsertHelper c entry.depth entry.mem entry.root data
      if node.isNone then return (-1, { entry with mem := m }) -- do not alter the root
      return (0, ⟨m, node⟩)

/-- `avl_tree_delete`. -/
def avlTreeDelete (c : Comparison K) (entry : AvlTreeEntry K) (data : Option K) :
    Option (Int × AvlTreeEntry K) :=
  match data with
  | none => some (-1, entry)
  | some data => do
      let (node, m) ← avlTreeDeleteHelper c entry.depth entry.mem entry.root data
      if node.isNone then return (-1, { entry with mem := m }) -- do not alter the root
      return (0, ⟨m, node⟩)

/-- `avl_tree_lookup`. -/
def avlTreeLookup (c : Comparison K) (entry : AvlTreeEntry K) (data : Option K) : Option Int :=
  match data with
  | none => some 0
  | some data => avlTreeLookupHelper c entry.depth entry.mem entry.root data

end DataStructures.Avl
