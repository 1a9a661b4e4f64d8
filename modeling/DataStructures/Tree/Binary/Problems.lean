import DataStructures.Tree.Binary.Model

/-!
# `tree/binary_tree_problems.c`

The tree that is built from an in-order and a level-order traversal; the problems that are solved in
level order: whether two data are in cousins, whether an edge divides the tree into two halves, and
whether the tree is perfect; and those that are solved by recursion: whether it is a sum tree, and
whether two trees are duplicates or mirrored.

The arrays are lists, and a buffer is the list of what has been written into it so far.
-/

namespace DataStructures.BinaryTree

open Lib Queue

/-! ### A tree from its traversals -/

/-- `buf[len++] = elem`, in a buffer with room for `capacity` elements. -/
def append (capacity : Nat) (buf : List Int) (elem : Int) : Option (List Int) :=
  if buf.length < capacity then some (buf ++ [elem]) else none

/-- The inner loop: the element of `lvl` is appended for each element of `part` that equals it. -/
def appendMatches (capacity : Nat) (elem : Int) : List Int → List Int → Option (List Int)
  | [], buf => some buf
  | x :: part, buf => do
      let buf ← if elem = x then append capacity buf elem else some buf
      appendMatches capacity elem part buf

/-- The outer loop. -/
def fillLvlOrder (capacity : Nat) (part : List Int) : List Int → List Int → Option (List Int)
  | [], buf => some buf
  | elem :: lvl, buf => do
      let buf ← appendMatches capacity elem part buf
      fillLvlOrder capacity part lvl buf

/-- The level order of a subtree, whose elements are in `part`: the buffer, or NULL.  The first
element of `lvl` is left out. -/
def treeLvlOrder (h : Heap) (ins part lvl : List Int) : Option (Option (List Int) × Heap) :=
  if h.ask.1 then do
    let buf ← fillLvlOrder ins.length part lvl.tail []
    return (some buf, h.ask.2)
  else some (none, h.ask.2)

/-- `__left_tree_lvl_order`. -/
def leftTreeLvlOrder (h : Heap) (ins lvl : List Int) (rootIdx : Nat) :
    Option (Option (List Int) × Heap) :=
  treeLvlOrder h ins (ins.take rootIdx) lvl

/-- `__right_tree_lvl_order`. -/
def rightTreeLvlOrder (h : Heap) (ins lvl : List Int) (rootIdx : Nat) :
    Option (Option (List Int) × Heap) :=
  treeLvlOrder h ins (ins.drop (rootIdx + 1)) lvl

/-- `__binary_tree_by_traversals`. -/
def binaryTreeByTraversalsHelper (ins : List Int) : Nat → Heap → List Int → Option (Ptr × Heap)
  | 0, _, _ => none
  | _ + 1, h, [] => some (none, h)
  | depth + 1, h, root :: lvl => do
      let (node, h) := binaryTreeNodeCreate h root
      if node.isNone then none -- `assert(node)`
      else
        let rootIdx ← ins.findIdx? (· == root) -- `assert(root_idx != -1)`
        let (llvl, h) ← leftTreeLvlOrder h ins (root :: lvl) rootIdx
        let (rlvl, h) ← rightTreeLvlOrder h ins (root :: lvl) rootIdx
        -- without the buffer its length is not written, and then read
        let llvl ← llvl
        let (left, h) ← binaryTreeByTraversalsHelper ins depth h llvl
        let h ← setLeft h node left
        let rlvl ← rlvl
        let (right, h) ← binaryTreeByTraversalsHelper ins depth h rlvl
        let h ← setRight h node right
        return (node, h)

/-- `binary_tree_by_traversals`.  The recursion need not end, so it is given a depth. -/
def binaryTreeByTraversals (depth : Nat) (h : Heap) (ins lvl : List Int) : Option (Ptr × Heap) :=
  if ins.length ≠ lvl.length then some (none, h)
  else if ins.all (fun x => lvl.contains x) then binaryTreeByTraversalsHelper ins depth h lvl
  else some (none, h)

/-! ### Problems in level order -/

/-- A child that is there: it is compared with `a` and `b`, and put into the queue. -/
def cousinsChild (h : Heap) (a b : Int) (crt child : Ptr) (queue : QueueT Nat) (parents : Ptr × Ptr) :
    Option (QueueT Nat × Ptr × Ptr) :=
  if child.isSome then do
    let node ← h.load child
    let parentA := if node.data = a then crt else parents.1
    let parentB := if node.data = b then crt else parents.2
    let queue ← assertEnqueue queue child
    return (queue, parentA, parentB)
  else some (queue, parents)

/-- The loop over the nodes of a level: the queue, `parent_a` and `parent_b`. -/
def cousinsLevel (h : Heap) (a b : Int) : Nat → QueueT Nat → Ptr × Ptr →
    Option (QueueT Nat × Ptr × Ptr)
  | 0, queue, parents => some (queue, parents)
  | size + 1, queue, parents => do
      let (crt, queue) ← queueDequeue queue
      let node ← h.load crt
      let (queue, parents) ← cousinsChild h a b crt node.left queue parents
      let (queue, parents) ← cousinsChild h a b crt node.right queue parents
      cousinsLevel h a b size queue parents

/-- The loop over the levels, which ends when a parent has been found. -/
def cousinsLoop (h : Heap) (a b : Int) : Nat → QueueT Nat → Ptr × Ptr → Option (Ptr × Ptr)
  | 0, _, _ => none
  | rounds + 1, queue, parents =>
      if queueIsEmpty queue then some parents
      else do
        let (queue, parents) ← cousinsLevel h a b (queueSize queue) queue parents
        if parents.1.isSome || parents.2.isSome then return parents
        cousinsLoop h a b rounds queue parents

/-- `binary_tree_cousins`. -/
def binaryTreeCousins (h : Heap) (root : Ptr) (a b : Int) : Option Bool :=
  if root.isNone then some false
  else do
    let (queue, h) ← createQueue h
    let queue ← assertEnqueue queue root
    let (parentA, parentB) ← cousinsLoop h a b (queue.size + 1) queue (none, none)
    return parentA.isSome && parentB.isSome && parentA ≠ parentB

/-- The loop of `binary_tree_divide_two_halves`. -/
def divideLoop (h : Heap) (treeSize : Int) : Nat → QueueT Nat → Option Bool
  | 0, _ => none
  | rounds + 1, queue =>
      if queueIsEmpty queue then some false
      else do
        let (root, queue) ← queueDequeue queue
        let node ← h.load root
        let subtreeSize ← binaryTreeSize (levels h) h root
        let rest ← toInt (treeSize - subtreeSize)
        if subtreeSize = rest then return true
        let queue ← enqueueChildren queue node.left node.right
        divideLoop h treeSize rounds queue

/-- `binary_tree_divide_two_halves`. -/
def binaryTreeDivideTwoHalves (h : Heap) (root : Ptr) : Option Bool :=
  if root.isNone then some false
  else do
    let treeSize ← binaryTreeSize (levels h) h root
    let (queue, h) ← createQueue h
    let queue ← assertEnqueue queue root
    divideLoop h treeSize (queue.size + 1) queue

/-- `__binary_tree_is_perfect`. -/
def binaryTreeIsPerfectHelper (h : Heap) : Nat → Ptr → Int → Int → Option Bool
  | 0, _, _, _ => none
  | depth + 1, root, treeDepth, crtDepth => do
      if ← binaryTreeNodeIsLeaf h root then return treeDepth == crtDepth
      let node ← h.load root
      if node.left.isNone || node.right.isNone then return false
      if ← binaryTreeIsPerfectHelper h depth node.left treeDepth (crtDepth + 1) then
        binaryTreeIsPerfectHelper h depth node.right treeDepth (crtDepth + 1)
      else return false

/-- `binary_tree_is_perfect`. -/
def binaryTreeIsPerfect (h : Heap) (root : Ptr) : Option Bool :=
  if root.isNone then some false
  else do
    let treeDepth ← binaryTreeDepthIterative h root
    binaryTreeIsPerfectHelper h (levels h) root treeDepth 1

/-! ### By recursion -/

/-- `__binary_tree_sum`. -/
def binaryTreeSum : Nat → Heap → Ptr → Option Int
  | 0, _, _ => none
  | _ + 1, _, none => some 0
  | depth + 1, h, some a => do
      let node ← h.load (some a)
      let left ← binaryTreeSum depth h node.left
      let right ← binaryTreeSum depth h node.right
      let children ← toInt (left + right)
      toInt (children + node.data)

/-- `binary_tree_is_sum_tree`. -/
def binaryTreeIsSumTree (h : Heap) : Nat → Ptr → Option Bool
  | 0, _ => none
  | _ + 1, none => some true
  | depth + 1, some a => do
      if ← binaryTreeNodeIsLeaf h (some a) then return true
      let node ← h.load (some a)
      let leftSum ← binaryTreeSum (levels h) h node.left
      let rightSum ← binaryTreeSum (levels h) h node.right
      let sum ← toInt (leftSum + rightSum)
      if node.data = sum then
        if ← binaryTreeIsSumTree h depth node.left then binaryTreeIsSumTree h depth node.right
        else return false
      else return false

/-- The comparison of two trees: `first` and `second` are the children of a node of the second tree that the
children of a node of the first one are compared with. -/
def compareTrees (first second : BinaryTreeNode → Ptr) (h : Heap) : Nat → Ptr → Ptr → Option Bool
  | 0, _, _ => none
  | _ + 1, none, none => some true
  | depth + 1, some a, some b => do
      let n1 ← h.load (some a)
      let n2 ← h.load (some b)
      if n1.data = n2.data then
        if ← compareTrees first second h depth n1.left (first n2) then
          compareTrees first second h depth n1.right (second n2)
        else return false
      else return false
  | _ + 1, _, _ => some false

/-- `binary_tree_are_duplicate`. -/
def binaryTreeAreDuplicate (h : Heap) (r1 r2 : Ptr) : Option Bool :=
  compareTrees BinaryTreeNode.left BinaryTreeNode.right h (levels h) r1 r2

/-- `binary_tree_are_mirror`. -/
def binaryTreeAreMirror (h : Heap) (r1 r2 : Ptr) : Option Bool :=
  compareTrees BinaryTreeNode.right BinaryTreeNode.left h (levels h) r1 r2

/-- `binary_tree_is_foldable`. -/
def binaryTreeIsFoldable (h : Heap) : Ptr → Option Bool
  | none => some true
  | some a => do
      let node ← h.load (some a)
      binaryTreeAreMirror h node.left node.right

end DataStructures.BinaryTree
