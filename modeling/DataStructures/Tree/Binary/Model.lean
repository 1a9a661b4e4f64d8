import DataStructures.Lib.CInt
import DataStructures.Lib.Memory
import DataStructures.Queue.Model
import DataStructures.Stack.Model

/-!
# `tree/binary_tree.c`

The binary tree: the insertion in level order, the deletion and the other functions in level order,
as they compute on a memory of nodes, with the queue they run through the tree by.  `none` as the
result means that an assertion has failed, a null or dangling pointer has been followed or an `int`
has overflown.  A printing function returns what it prints.

A round of a loop over the queue takes an element from it, and `size` elements at most are ever
put in, so `size + 1` rounds are enough; so are, for a recursion or a loop over a stack, as many
levels or rounds as nodes have ever been allocated.
-/

namespace DataStructures.BinaryTree

open Lib Queue Stack

/-- `binary_tree_node`. -/
structure BinaryTreeNode where
  data : Int
  left : Ptr
  right : Ptr

/-- The memory the nodes live in. -/
abbrev Heap := Memory BinaryTreeNode

/-- `p->data = data`. -/
def setData (h : Heap) (p : Ptr) (data : Int) : Option Heap := do
  let node ← h.load p
  h.store p { node with data := data }

/-- `p->left = left`. -/
def setLeft (h : Heap) (p left : Ptr) : Option Heap := do
  let node ← h.load p
  h.store p { node with left := left }

/-- `p->right = right`. -/
def setRight (h : Heap) (p right : Ptr) : Option Heap := do
  let node ← h.load p
  h.store p { node with right := right }

/-- `binary_tree_node_create`. -/
def binaryTreeNodeCreate (h : Heap) (data : Int) : Ptr × Heap := h.malloc ⟨data, none, none⟩

/-- `binary_tree_node_destroy`. -/
def binaryTreeNodeDestroy : Nat → Heap → Ptr → Option Heap
  | 0, _, _ => none
  | _ + 1, h, none => some h
  | depth + 1, h, some a => do
      let node ← h.load (some a)
      let h ← binaryTreeNodeDestroy depth h node.left
      let h ← binaryTreeNodeDestroy depth h node.right
      h.free (some a)

/-- More levels than a tree has. -/
def levels (h : Heap) : Nat := h.next + 1

/-- `queue = queue_create(128)`, with the assertion that it is there. -/
def createQueue (h : Heap) : Option (QueueT Nat × Heap) := do
  let (queue, outcomes) := queueCreate Nat 128 h.outcomes
  let queue ← queue
  return (queue, { h with outcomes := outcomes })

/-- `assert(!queue_enqueue(queue, elem))`. -/
def assertEnqueue (queue : QueueT Nat) (elem : Ptr) : Option (QueueT Nat) :=
  if (queueEnqueue queue elem).1 = 0 then some (queueEnqueue queue elem).2 else none

/-- A child that is there is put into the queue. -/
def enqueueChild (queue : QueueT Nat) (child : Ptr) : Option (QueueT Nat) :=
  if child.isSome then assertEnqueue queue child else some queue

/-- The loop of `binary_tree_insert`: `node` and the memory. -/
def insertLoop (data : Int) : Nat → Heap → QueueT Nat → Option (Ptr × Heap)
  | 0, _, _ => none
  | rounds + 1, h, queue =>
      if queueIsEmpty queue then some (none, h)
      else do
        let (crt, queue) ← queueDequeue queue
        let node ← h.load crt
        -- left child
        if node.left.isNone then
          let (new, h) := binaryTreeNodeCreate h data
          if new.isNone then return (none, h)
          let h ← setLeft h crt new
          return (new, h)
        else
          let queue ← assertEnqueue queue node.left
          -- right child
          if node.right.isNone then
            let (new, h) := binaryTreeNodeCreate h data
            if new.isNone then return (none, h)
            let h ← setRight h crt new
            return (new, h)
          else
            let queue ← assertEnqueue queue node.right
            insertLoop data rounds h queue

/-- `binary_tree_insert`. -/
def binaryTreeInsert (h : Heap) (root : Ptr) (data : Int) : Option (Ptr × Heap) :=
  if root.isNone then some (binaryTreeNodeCreate h data)
  else do
    let (queue, h) ← createQueue h
    let queue ← assertEnqueue queue root
    insertLoop data (queue.size + 1) h queue

/-- `to_delete`, `to_replace` and `parent_to_replace`. -/
structure Cursors where
  toDelete : Ptr
  toReplace : Ptr
  parentToReplace : Ptr

/-- The loop of `binary_tree_delete`. -/
def deleteLoop (data : Int) (h : Heap) : Nat → QueueT Nat → Cursors → Option Cursors
  | 0, _, _ => none
  | rounds + 1, queue, c =>
      if queueIsEmpty queue then some c
      else do
        let (toReplace, queue) ← queueDequeue queue
        let node ← h.load toReplace
        let toDelete := if node.data = data then toReplace else c.toDelete
        let parent := if node.left.isSome || node.right.isSome then toReplace else c.parentToReplace
        let queue ← enqueueChild queue node.left
        let queue ← enqueueChild queue node.right
        deleteLoop data h rounds queue ⟨toDelete, toReplace, parent⟩

/-- The child of `parent` that is `child` becomes NULL. -/
def clearChild (h : Heap) (parent child : Ptr) : Option Heap := do
  let node ← h.load parent
  if node.left = child then setLeft h parent none else setRight h parent none

/-- `binary_tree_delete`. -/
def binaryTreeDelete (h : Heap) (root : Ptr) (data : Int) : Option (Ptr × Heap) :=
  if root.isNone then some (none, h)
  else do
    let (queue, h) ← createQueue h
    let queue ← assertEnqueue queue root
    let c ← deleteLoop data h (queue.size + 1) queue ⟨none, none, none⟩
    if c.toDelete.isNone then return (root, h)
    else if c.toReplace.isNone then none -- `assert(to_replace)`
    else if c.parentToReplace.isNone then
      if c.toDelete = root ∧ c.toReplace = root then
        let h ← binaryTreeNodeDestroy (levels h) h root
        return (none, h)
      else none -- `assert(to_delete == root)`, `assert(to_replace == root)`
    else
      let node ← h.load c.toReplace
      let h ← setData h c.toDelete node.data
      let h ← clearChild h c.parentToReplace c.toReplace
      let h ← binaryTreeNodeDestroy (levels h) h c.toReplace
      return (root, h)

/-- `binary_tree_node_is_leaf`. -/
def binaryTreeNodeIsLeaf (h : Heap) : Ptr → Option Bool
  | none => some false
  | some a => do
      let node ← h.load (some a)
      return node.left.isNone && node.right.isNone

/-- `binary_tree_size`. -/
def binaryTreeSize : Nat → Heap → Ptr → Option Int
  | 0, _, _ => none
  | _ + 1, _, none => some 0
  | depth + 1, h, some a => do
      let node ← h.load (some a)
      let left ← binaryTreeSize depth h node.left
      let right ← binaryTreeSize depth h node.right
      let children ← toInt (left + right)
      toInt (children + 1)

/-! ### Depth first -/

section Recursion

variable {N D : Type} (left right : N → Ptr) (data : N → D)

/-- Printing by recursion, over nodes of any type: `order` puts together the node's datum and what is
printed for the two subtrees. -/
def orderPrint (order : D → List D → List D → List D) (m : Memory N) : Nat → Ptr → Option (List D)
  | 0, _ => none
  | _ + 1, none => some []
  | depth + 1, some a => do
      let node ← m.load (some a)
      let printedLeft ← orderPrint order m depth (left node)
      let printedRight ← orderPrint order m depth (right node)
      return order (data node) printedLeft printedRight

end Recursion

/-- `binary_tree_in_order_print`. -/
def binaryTreeInOrderPrint (h : Heap) (node : Ptr) : Option (List Int) :=
  orderPrint BinaryTreeNode.left BinaryTreeNode.right BinaryTreeNode.data
    (fun data left right => left ++ data :: right) h (levels h) node

/-- `binary_tree_pre_order_print`. -/
def binaryTreePreOrderPrint (h : Heap) (node : Ptr) : Option (List Int) :=
  orderPrint BinaryTreeNode.left BinaryTreeNode.right BinaryTreeNode.data
    (fun data left right => data :: (left ++ right)) h (levels h) node

/-- `binary_tree_post_order_print`. -/
def binaryTreePostOrderPrint (h : Heap) (node : Ptr) : Option (List Int) :=
  orderPrint BinaryTreeNode.left BinaryTreeNode.right BinaryTreeNode.data
    (fun data left right => left ++ right ++ [data]) h (levels h) node

/-- `binary_tree_depth_recursive`. -/
def binaryTreeDepthRecursive : Nat → Heap → Ptr → Option Int
  | 0, _, _ => none
  | _ + 1, _, none => some 0
  | depth + 1, h, some a => do
      let node ← h.load (some a)
      let left ← binaryTreeDepthRecursive depth h node.left
      let right ← binaryTreeDepthRecursive depth h node.right
      toInt (max left right + 1)

/-! ### Level order -/

/-- The children that are there are put into the queue. -/
def enqueueChildren (queue : QueueT Nat) (left right : Ptr) : Option (QueueT Nat) := do
  let queue ← enqueueChild queue left
  enqueueChild queue right

section Print

variable {N D : Type} (left right : N → Ptr) (data : N → D)

/-- The loop that prints in level order, over nodes of any type. -/
def levelOrderPrintLoop (m : Memory N) : Nat → QueueT Nat → Option (List D)
  | 0, _ => none
  | rounds + 1, queue =>
      if queueIsEmpty queue then some []
      else do
        let (crt, queue) ← queueDequeue queue
        let node ← m.load crt
        let queue ← enqueueChildren queue (left node) (right node)
        let printed ← levelOrderPrintLoop m rounds queue
        return data node :: printed

/-- Printing in level order. -/
def levelOrderPrint (m : Memory N) (node : Ptr) : Option (List D) :=
  if node.isNone then some []
  else
    match (queueCreate Nat 128 m.outcomes).1 with
    | none => some []
    | some queue => do
        let queue ← assertEnqueue queue node
        levelOrderPrintLoop left right data m (queue.size + 1) queue

end Print

/-- `binary_tree_level_order_print`. -/
def binaryTreeLevelOrderPrint (h : Heap) (node : Ptr) : Option (List Int) :=
  levelOrderPrint BinaryTreeNode.left BinaryTreeNode.right BinaryTreeNode.data h node

/-- `assert(!stack_push(stack, elem))`. -/
def assertPush (stack : StackT) (elem : Ptr) : Option StackT :=
  if (stackPush stack elem).1 = 0 then some (stackPush stack elem).2 else none

/-- The loop that pushes the nodes in level order. -/
def pushLoop (h : Heap) : Nat → QueueT Nat → StackT → Option StackT
  | 0, _, _ => none
  | rounds + 1, queue, stack =>
      if queueIsEmpty queue then some stack
      else do
        let (crt, queue) ← queueDequeue queue
        let stack ← assertPush stack crt
        let node ← h.load crt
        let queue ← enqueueChildren queue node.left node.right
        pushLoop h rounds queue stack

/-- The loop that prints what it pops. -/
def popLoop (h : Heap) : Nat → StackT → Option (List Int)
  | 0, _ => none
  | rounds + 1, stack =>
      if stackIsEmpty stack then some []
      else do
        let (crt, stack) ← stackPop stack
        let node ← h.load crt
        let printed ← popLoop h rounds stack
        return node.data :: printed

/-! ### With stacks -/

/-- `assert(!stack_push(stack, elem))`, when the allocations to come answer `outcomes`; with what
those after it answer. -/
def pushNext (outcomes : Outcomes) (stack : StackT) (elem : Ptr) : Option (StackT × Outcomes) := do
  let stack ← assertPush { stack with mem := { stack.mem with outcomes := outcomes } } elem
  return (stack, stack.mem.outcomes)

/-- A child that is there is pushed. -/
def pushChild (outcomes : Outcomes) (stack : StackT) (child : Ptr) : Option (StackT × Outcomes) :=
  if child.isSome then pushNext outcomes stack child else some (stack, outcomes)

/-- The children that are there are pushed, `first` before `second`. -/
def pushChildren (outcomes : Outcomes) (stack : StackT) (first second : Ptr) :
    Option (StackT × Outcomes) := do
  let (stack, outcomes) ← pushChild outcomes stack first
  pushChild outcomes stack second

/-- The loop of `binary_tree_pre_order_iterative_print`. -/
def preOrderLoop (h : Heap) : Nat → Outcomes → StackT → Option (List Int)
  | 0, _, _ => none
  | rounds + 1, outcomes, stack =>
      if stackIsEmpty stack then some []
      else do
        let (crt, stack) ← stackPop stack
        let node ← h.load crt
        let (stack, outcomes) ← pushChildren outcomes stack node.right node.left
        let printed ← preOrderLoop h rounds outcomes stack
        return node.data :: printed

/-- `binary_tree_pre_order_iterative_print`; `links` is what the memory of the stack's list nodes
held before. -/
def binaryTreePreOrderIterativePrint (links : Lib.Store Node) (h : Heap) (node : Ptr) :
    Option (List Int) :=
  if node.isNone then some []
  else do
    let stack ← stackCreate links h.outcomes
    let (stack, outcomes) ← pushNext stack.mem.outcomes stack node
    preOrderLoop h (levels h) outcomes stack

/-- The first loop of `binary_tree_post_order_iterative_print`: the second stack at its end. -/
def postOrderLoop (h : Heap) : Nat → Outcomes → StackT → StackT → Option StackT
  | 0, _, _, _ => none
  | rounds + 1, outcomes, stack1, stack2 =>
      if stackIsEmpty stack1 then some stack2
      else do
        let (crt, stack1) ← stackPop stack1
        let (stack2, outcomes) ← pushNext outcomes stack2 crt
        let node ← h.load crt
        let (stack1, outcomes) ← pushChildren outcomes stack1 node.left node.right
        postOrderLoop h rounds outcomes stack1 stack2

/-- `binary_tree_post_order_iterative_print`.  One of the two allocations may fail by the assertion
`assert(stack1 || stack2)`, but then the first push on that stack fails its own. -/
def binaryTreePostOrderIterativePrint (links1 links2 : Lib.Store Node) (h : Heap) (node : Ptr) :
    Option (List Int) :=
  if node.isNone then some []
  else do
    let stack1 ← stackCreate links1 h.outcomes
    let stack2 ← stackCreate links2 stack1.mem.outcomes
    let (stack1, outcomes) ← pushNext stack2.mem.outcomes stack1 node
    let stack2 ← postOrderLoop h (levels h) outcomes stack1 stack2
    popLoop h (levels h) stack2

/-- An inner loop of `binary_tree_level_order_spiral_print`: a stack is printed, and the children go
on the other one, `first` before `second`.  With what is printed come that other stack and what
the allocations to come answer. -/
def spiralLevel (h : Heap) (first second : BinaryTreeNode → Ptr) :
    Nat → Outcomes → StackT → StackT → Option (List Int × StackT × StackT × Outcomes)
  | 0, _, _, _ => none
  | rounds + 1, outcomes, printing, filling =>
      if stackIsEmpty printing then some ([], printing, filling, outcomes)
      else do
        let (crt, printing) ← stackPop printing
        let node ← h.load crt
        let (filling, outcomes) ← pushChildren outcomes filling (first node) (second node)
        let (printed, rest) ← spiralLevel h first second rounds outcomes printing filling
        return (node.data :: printed, rest)

/-- The outer loop. -/
def spiralLoop (h : Heap) : Nat → Outcomes → StackT → StackT → Option (List Int)
  | 0, _, _, _ => none
  | rounds + 1, outcomes, sLtr, sRtl =>
      if stackIsEmpty sLtr && stackIsEmpty sRtl then some []
      else do
        let (rtl, sRtl, sLtr, outcomes) ←
          spiralLevel h BinaryTreeNode.right BinaryTreeNode.left (levels h) outcomes sRtl sLtr
        let (ltr, sLtr, sRtl, outcomes) ←
          spiralLevel h BinaryTreeNode.left BinaryTreeNode.right (levels h) outcomes sLtr sRtl
        let printed ← spiralLoop h rounds outcomes sLtr sRtl
        return rtl ++ (ltr ++ printed)

/-- `binary_tree_level_order_spiral_print`.  One of the two allocations may fail by the assertion
`assert(s_ltr || s_rtl)`, but then the first push fails its own, or a stack is looked at that is
not there. -/
def binaryTreeLevelOrderSpiralPrint (links1 links2 : Lib.Store Node) (h : Heap) (node : Ptr) :
    Option (List Int) :=
  if node.isNone then some []
  else do
    let sLtr ← stackCreate links1 h.outcomes
    let sRtl ← stackCreate links2 sLtr.mem.outcomes
    let (sRtl, outcomes) ← pushNext sRtl.mem.outcomes sRtl node
    spiralLoop h (levels h) outcomes sLtr sRtl

/-! ### In reverse, and the depth -/

/-- `binary_tree_level_order_reverse_print`; `links` is what the memory of the stack's list nodes
held before.  One of the two allocations may fail by the assertion `assert(stack || queue)`, but
then the first push or enqueue fails its own. -/
def binaryTreeLevelOrderReversePrint (links : Lib.Store Node) (h : Heap) (node : Ptr) :
    Option (List Int) :=
  if node.isNone then some []
  else do
    let stack ← stackCreate links h.outcomes
    let (queue, outcomes) := queueCreate Nat 128 stack.mem.outcomes
    let queue ← queue
    let queue ← assertEnqueue queue node
    let stack ← pushLoop h (queue.size + 1) queue
      { stack with mem := { stack.mem with outcomes := outcomes } }
    popLoop h (queue.size + 1) stack

/-- The loop over the nodes of a level. -/
def depthLevel (h : Heap) : Nat → QueueT Nat → Option (QueueT Nat)
  | 0, queue => some queue
  | size + 1, queue => do
      let (crt, queue) ← queueDequeue queue
      let node ← h.load crt
      let queue ← enqueueChildren queue node.left node.right
      depthLevel h size queue

/-- The loop over the levels. -/
def depthLoop (h : Heap) : Nat → QueueT Nat → Int → Option Int
  | 0, _, _ => none
  | rounds + 1, queue, depth =>
      if queueIsEmpty queue then some depth
      else do
        let queue ← depthLevel h (queueSize queue) queue
        depthLoop h rounds queue (depth + 1)

/-- `binary_tree_depth_iterative`. -/
def binaryTreeDepthIterative (h : Heap) (node : Ptr) : Option Int :=
  if node.isNone then some 0
  else do
    let (queue, h) ← createQueue h
    let queue ← assertEnqueue queue node
    depthLoop h (queue.size + 1) queue 0

/-! ### Diagonals -/

/-- The loop of `binary_tree_diagonal_print`; a NULL that is taken from the queue ends it. -/
def diagonalLoop (h : Heap) : Nat → QueueT Nat → Ptr → Option (List Int)
  | 0, _, _ => none
  | _ + 1, _, none => some []
  | rounds + 1, queue, some a => do
      let node ← h.load (some a)
      let queue ← enqueueChild queue node.left
      if node.right.isSome then
        let printed ← diagonalLoop h rounds queue node.right
        return node.data :: printed
      else
        let (next, queue) ← queueDequeue queue
        let printed ← diagonalLoop h rounds queue next
        return node.data :: printed

/-- `binary_tree_diagonal_print`. -/
def binaryTreeDiagonalPrint (h : Heap) (node : Ptr) : Option (List Int) :=
  if node.isNone then some []
  else do
    let (queue, h) ← createQueue h
    diagonalLoop h (levels h) queue node

end DataStructures.BinaryTree
