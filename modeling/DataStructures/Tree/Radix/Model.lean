import DataStructures.Lib.Outcomes
import DataStructures.Lib.Prefix

/-!
# `tree/radix_tree.c`

The radix tree as it computes.  A node holds its prefix (`none` for `NULL`, as in
the root), its data and one child for each byte; `null` is the null pointer.
Nodes that the source changes in place are rebuilt on the way back up.

Keys and prefixes are C strings, so their bytes are not zero.  `none` as the
result of a function means that an assertion has failed or a null pointer has
been followed.  `_alloc` copies the value it is given, and what it, `malloc`,
`strdup` and `realloc` answer is taken from an `Outcomes`.  Freed memory is
garbage; dumping and destroying are in `Radix/Dump`.
-/

namespace DataStructures.Radix

open Lib

variable {V : Type}

/-- A character of a C string. -/
abbrev Byte := { b : UInt8 // b ≠ 0 }

/-- `RADIX`. -/
def radix : Nat := 256

/-- What `for (int i = 0; i < RADIX; i++)` runs through. -/
def indices : List UInt8 := (List.range radix).map UInt8.ofNat

/-- The byte a string starts with, the terminator included. -/
def firstByte : List Byte → UInt8
  | [] => 0
  | c :: _ => c.val

/-- `__common_prefix`. -/
def commonPrefix (s1 s2 : List Byte) : Nat := lcp s1 s2

/-- `radix_tree_node_t`, or the null pointer. -/
inductive RadixTreeNode (V : Type)
  | null
  | node (pfx : Option (List Byte)) (data : Option V) (children : UInt8 → RadixTreeNode V)

namespace RadixTreeNode

def isNull : RadixTreeNode V → Bool
  | .null => true
  | .node _ _ _ => false

def pfx : RadixTreeNode V → Option (List Byte)
  | .null => none
  | .node p _ _ => p

def data : RadixTreeNode V → Option V
  | .null => none
  | .node _ d _ => d

def children : RadixTreeNode V → UInt8 → RadixTreeNode V
  | .null => fun _ => .null
  | .node _ _ ch => ch

end RadixTreeNode

/-- `memset(node->children, 0, ..)`. -/
def noChildren : UInt8 → RadixTreeNode V := fun _ => .null

/-! ### Nodes -/

/-- `__node_children`. -/
def nodeChildren (node : RadixTreeNode V) : Nat :=
  indices.countP (fun i => !(node.children i).isNull)

/-- `__node_create`. -/
def nodeCreate (o : Outcomes) (pfx : Option (List Byte)) (data : Option V) :
    RadixTreeNode V × Outcomes :=
  if !o.first then (.null, o.rest)
  else
    match o.rest.when pfx.isSome with
    | (false, o) => (.null, o)
    | (true, o) =>
        match o.when data.isSome with
        | (false, o) => (.null, o)
        | (true, o) => (.node pfx data noChildren, o)

/-- `__node_cleanup`: each turn of the loop looks at one child. -/
def nodeCleanup : RadixTreeNode V → RadixTreeNode V
  | .null => .null
  | .node p d ch =>
      .node p d (fun i =>
        if (ch i).isNull then ch i -- `continue`
        else if nodeChildren (ch i) = 0 ∧ (ch i).data.isNone then .null
        else ch i)

/-- `__node_split`. -/
def nodeSplit (o : Outcomes) (node : RadixTreeNode V) (prefixLen : Nat) :
    Option (Int × RadixTreeNode V × Outcomes) :=
  match node with
  | .node (some p) d ch =>
      match p.drop prefixLen with
      | [] => none -- `assert(strlen(node->prefix) > prefix_len)`
      | c :: q =>
          match nodeCreate (V := V) o (some (c :: q)) none with
          | (.null, o) => some (-1, node, o)
          | (.node cp _ _, o) =>
              let childNode := .node cp d ch
              some (0, .node (some (p.take prefixLen)) none
                (Function.update noChildren c.val childNode), o)
  | _ => none -- `assert(node->prefix)`

/-- The first child that is not null. -/
def firstChild (ch : UInt8 → RadixTreeNode V) : RadixTreeNode V :=
  ((indices.map ch).find? (fun it => !it.isNull)).getD .null

/-- `__node_merge`. -/
def nodeMerge (o : Outcomes) (node : RadixTreeNode V) :
    Option (Int × RadixTreeNode V × Outcomes) :=
  if nodeChildren node ≠ 1 ∨ node.data.isSome then some (0, node, o)
  else
    match node, firstChild node.children with
    | .node p d ch, .node q cd cch =>
        if cd.isSome then some (0, node, o)
        else
          match p, q with
          | some p, some q =>
              if o.first then some (0, .node (some (p ++ q)) d cch, o.rest)
              else some (-1, .node none d ch, o.rest)
          | _, _ => none -- `strlen(NULL)`
    | _, _ => none

/-! ### Helpers -/

/-- `__radix_tree_insert`: one turn of the loop, and the turns after it. -/
def radixTreeInsertHelper (o : Outcomes) (it : RadixTreeNode V) (key : List Byte) (data : V) :
    Option (Int × RadixTreeNode V × Outcomes) :=
  match key, it with
  | [], _ => some (0, it, o)
  | _ :: _, .null => none
  | c :: rest, .node p d ch =>
      match ch c.val with
      | .null =>
          match nodeCreate o (some (c :: rest)) (some data) with
          | (.null, o) => some (-1, it, o)
          | (newNode, o) => some (0, .node p d (Function.update ch c.val newNode), o)
      | .node none _ _ => none -- `assert(s1 && s2)`
      | .node (some q) d' ch' =>
          let prefixLen := commonPrefix q (c :: rest)
          if _h : prefixLen = 0 then none -- `assert(prefix_len)`
          else
            match if prefixLen < q.length then nodeSplit o (.node (some q) d' ch') prefixLen
              else some (0, .node (some q) d' ch', o) with
            | none => none
            | some (ret, it, o) =>
                if ret ≠ 0 then some (-2, .node p d (Function.update ch c.val it), o)
                else if prefixLen = (c :: rest).length then
                  if it.data.isSome then some (-3, .node p d (Function.update ch c.val it), o)
                  else if !o.first then some (-3, .node p d (Function.update ch c.val it), o.rest)
                  else
                    let it := .node it.pfx (some data) it.children
                    some (0, .node p d (Function.update ch c.val it), o.rest)
                else
                  match radixTreeInsertHelper o it ((c :: rest).drop prefixLen) data with
                  | none => none
                  | some (ret, it, o) => some (ret, .node p d (Function.update ch c.val it), o)
termination_by key.length
decreasing_by
  simp only [List.length_drop, List.length_cons]
  omega

/-- The code at the label `compact_tree` of `__radix_tree_remove`. -/
def compactTree (o : Outcomes) (node : RadixTreeNode V) :
    Option (Int × RadixTreeNode V × Outcomes) :=
  if node.pfx.isNone then some (0, nodeCleanup node, o) else nodeMerge o node

/-- `__radix_tree_remove`. -/
def radixTreeRemoveHelper (o : Outcomes) (key : List Byte) :
    RadixTreeNode V → Option (Int × RadixTreeNode V × Outcomes)
  | .null => none
  | .node p d ch =>
      let index := firstByte key
      match ch index with
      | .null => some (-1, .node p d ch, o)
      | .node none _ _ => none -- `assert(s1 && s2)`
      | .node (some q) d' ch' =>
          let prefixLen := commonPrefix q key
          if prefixLen = 0 then none -- `assert(prefix_len)`
          else if prefixLen < q.length then some (-2, .node p d ch, o)
          else if prefixLen = key.length then
            if d'.isNone then some (-3, .node p d ch, o)
            else if nodeChildren (.node (some q) d' ch') = 0 then
              compactTree o (.node p d (Function.update ch index .null))
            else some (0, .node p d (Function.update ch index (.node (some q) none ch')), o)
          else
            match radixTreeRemoveHelper o (key.drop prefixLen) (ch index) with
            | none => none
            | some (ret, it, o) =>
                if ret ≠ 0 then some (-4, .node p d (Function.update ch index it), o)
                else compactTree o (.node p d (Function.update ch index it))

/-- `__radix_tree_lookup`. -/
def radixTreeLookupHelper (it : RadixTreeNode V) (key : List Byte) : Option (Option V) :=
  match key, it with
  | [], _ => some none
  | _ :: _, .null => none
  | c :: rest, .node _ _ ch =>
      match ch c.val with
      | .null => some none
      | .node none _ _ => none -- `assert(s1 && s2)`
      | .node (some q) d' ch' =>
          let prefixLen := commonPrefix q (c :: rest)
          if _h : prefixLen = 0 then none -- `assert(prefix_len)`
          else if prefixLen < q.length then some none
          else if prefixLen = (c :: rest).length then some d'
          else radixTreeLookupHelper (.node (some q) d' ch') ((c :: rest).drop prefixLen)
termination_by key.length
decreasing_by
  simp only [List.length_drop, List.length_cons]
  omega

/-! ### The public functions -/

/-- `radix_tree_t`: the root.  The callbacks are never null here. -/
abbrev RadixTree (V : Type) := RadixTreeNode V

/-- `radix_tree_init`. -/
def radixTreeInit (o : Outcomes) : Option (RadixTree V) × Outcomes :=
  if !o.first then (none, o.rest)
  else
    match nodeCreate o.rest none none with
    | (.null, o) => (none, o)
    | (root, o) => (some root, o)

/-- `radix_tree_insert`. -/
def radixTreeInsert (o : Outcomes) (tree : RadixTree V) (key : Option (List Byte))
    (data : Option V) : Option (Int × RadixTree V × Outcomes) :=
  match tree, key, data with
  | .node _ _ _, some (c :: rest), some data => radixTreeInsertHelper o tree (c :: rest) data
  | _, _, _ => some (-1, tree, o)

/-- `radix_tree_remove`. -/
def radixTreeRemove (o : Outcomes) (tree : RadixTree V) (key : Option (List Byte)) :
    Option (Int × RadixTree V × Outcomes) :=
  match tree, key with
  | .node _ _ _, some (c :: rest) => radixTreeRemoveHelper o (c :: rest) tree
  | _, _ => some (-1, tree, o)

/-- `radix_tree_is_empty`. -/
def radixTreeIsEmpty (tree : RadixTree V) : Bool := !tree.isNull && nodeChildren tree == 0

/-- `radix_tree_lookup`. -/
def radixTreeLookup (tree : RadixTree V) (key : Option (List Byte)) : Option (Option V) :=
  match tree, key with
  | .node _ _ _, some (c :: rest) => radixTreeLookupHelper tree (c :: rest)
  | _, _ => some none

end DataStructures.Radix
