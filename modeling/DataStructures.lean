import DataStructures.Lib.Ring
import DataStructures.Lib.Dyadic
import DataStructures.Lib.Outcomes
import DataStructures.Lib.Memory
import DataStructures.Lib.Comparison
import DataStructures.Lib.Prefix
import DataStructures.Lib.Count
import DataStructures.Lib.Bitmap
import DataStructures.Lib.Runs
import DataStructures.Lib.Progress
import DataStructures.Lib.Handoff
import DataStructures.Lib.Refinement
import DataStructures.Lib.BreadthFirst
import DataStructures.Lib.LevelOrder
import DataStructures.Lib.PerfectTrees
import DataStructures.Lib.Diagonals
import DataStructures.Lib.Rebuild
import DataStructures.Lib.Trace
import DataStructures.Lib.Traversals
import DataStructures.Lib.CInt
import DataStructures.Lib.Loops
import DataStructures.Lib.Walks
import DataStructures.Lib.GraphSearch
import DataStructures.Lib.Forests
import DataStructures.Lib.CountCycles
import DataStructures.Lib.CycleWalks
import DataStructures.Lib.Floyd
import DataStructures.Lib.BinaryHeap
import DataStructures.List.Kdlist
import DataStructures.List.KdlistRun
import DataStructures.List.Kslist
import DataStructures.List.KslistRun
import DataStructures.List.KslistSafe
import DataStructures.List.Slist
import DataStructures.List.SlistChain
import DataStructures.List.SlistRun
import DataStructures.List.SlistLife
import DataStructures.List.SlistLoop
import DataStructures.List.SlistPalindrome
import DataStructures.List.SlistDuplicates
import DataStructures.Allocator.Buddy.Model
import DataStructures.Allocator.Buddy.Address
import DataStructures.Allocator.Buddy.Invariant
import DataStructures.Allocator.Buddy.Alloc
import DataStructures.Allocator.Buddy.Free
import DataStructures.Allocator.Buddy.Run
import DataStructures.Allocator.Buddy.Correct
import DataStructures.Allocator.Buddy.Sizes
import DataStructures.Allocator.Buddy.MergeLoop
import DataStructures.Allocator.Buddy.History
import DataStructures.Allocator.Slab.Model
import DataStructures.Allocator.Slab.Geometry
import DataStructures.Allocator.Slab.Invariant
import DataStructures.Allocator.Slab.Calls
import DataStructures.Allocator.Slab.Alloc
import DataStructures.Allocator.Slab.Run
import DataStructures.Allocator.Slab.Correct
import DataStructures.Allocator.Slab.Shrink
import DataStructures.Allocator.Slab.Footprint
import DataStructures.Allocator.Slab.BadFree
import DataStructures.Allocator.Slab.Search
import DataStructures.Tree.Radix.Model
import DataStructures.Tree.Radix.Shape
import DataStructures.Tree.Radix.Insert
import DataStructures.Tree.Radix.Remove
import DataStructures.Tree.Radix.Run
import DataStructures.Tree.Radix.Nodes
import DataStructures.Tree.Radix.Canonical
import DataStructures.Tree.Radix.DeadPaths
import DataStructures.Tree.Radix.FailedRemovals
import DataStructures.Tree.Radix.Failures
import DataStructures.Tree.Radix.Dump
import DataStructures.Tree.Avl.Model
import DataStructures.Tree.Avl.Shape
import DataStructures.Tree.Avl.Refine
import DataStructures.Tree.Avl.Delete
import DataStructures.Tree.Avl.Balance
import DataStructures.Tree.Avl.Entry
import DataStructures.Tree.Avl.Run
import DataStructures.Tree.Avl.SortedSet
import DataStructures.Tree.Avl.Atomic
import DataStructures.Tree.Avl.Height
import DataStructures.Tree.Trie.Model
import DataStructures.Tree.Trie.Shape
import DataStructures.Tree.Trie.Insert
import DataStructures.Tree.Trie.Delete
import DataStructures.Tree.Trie.Build
import DataStructures.Tree.Trie.Overlap
import DataStructures.Tree.Trie.Words
import DataStructures.Tree.Trie.Listing
import DataStructures.Tree.Trie.Exact
import DataStructures.Tree.Trie.Live
import DataStructures.Tree.Trie.Life
import DataStructures.Tree.Trie.Accesses
import DataStructures.Tree.Trie.Bounds
import DataStructures.Tree.Trie.Overrun
import DataStructures.Tree.Trie.LongestPrefix
import DataStructures.Tree.Trie.NullPrefix
import DataStructures.Htable.Model
import DataStructures.Htable.Contents
import DataStructures.Htable.Calls
import DataStructures.Htable.Correct
import DataStructures.Htable.Size
import DataStructures.Htable.Life
import DataStructures.Synchronization.Rwlock.Model
import DataStructures.Synchronization.Rwlock.Safety
import DataStructures.Synchronization.Rwlock.Fairness
import DataStructures.Synchronization.Rwlock.Progress
import DataStructures.Synchronization.Rwlock.Trylock
import DataStructures.Synchronization.Barrier.Model
import DataStructures.Synchronization.Barrier.Rounds
import DataStructures.Synchronization.Barrier.Correct
import DataStructures.Synchronization.Barrier.Progress
import DataStructures.Synchronization.Rcu.Model
import DataStructures.Synchronization.Rcu.Sections
import DataStructures.Synchronization.Rcu.Synchronize
import DataStructures.Synchronization.Rcu.Callbacks
import DataStructures.Synchronization.Rcu.Accounts
import DataStructures.Synchronization.Rcu.Progress
import DataStructures.Synchronization.Rcu.Destroy
import DataStructures.Synchronization.Rcu.Writers
import DataStructures.Synchronization.Rcu.Deferred
import DataStructures.Synchronization.Rcu.Register
import DataStructures.RingBuffer.Model
import DataStructures.RingBuffer.Fifo
import DataStructures.Stack.Model
import DataStructures.Stack.Lifo
import DataStructures.Stack.Life
import DataStructures.Queue.Model
import DataStructures.Queue.Fifo
import DataStructures.Tree.Binary.Model
import DataStructures.Tree.Binary.Loops
import DataStructures.Tree.Binary.Complete
import DataStructures.Tree.Binary.Shape
import DataStructures.Tree.Binary.Deletion
import DataStructures.Tree.Binary.Traversal
import DataStructures.Tree.Binary.Problems
import DataStructures.Tree.Binary.EarlyExit
import DataStructures.Tree.Binary.SumTree
import DataStructures.Tree.Binary.Cousins
import DataStructures.Tree.Binary.CousinsExact
import DataStructures.Tree.Binary.Rebuild
import DataStructures.Tree.Binary.Recursion
import DataStructures.Tree.Binary.Stacks
import DataStructures.Tree.Binary.Spiral
import DataStructures.Tree.Binary.Depth
import DataStructures.Tree.Binary.Duplicates
import DataStructures.Tree.Binary.Perfect
import DataStructures.Tree.Binary.Diagonal
import DataStructures.Tree.Avl.LevelOrder
import DataStructures.Tree.Avl.Prints
import DataStructures.Tree.Binary.Capacity
import DataStructures.Heap.Model
import DataStructures.Heap.Sift
import DataStructures.Heap.Order
import DataStructures.Heap.Indices
import DataStructures.Heap.Cost
import DataStructures.Graph.Model
import DataStructures.Graph.Marks
import DataStructures.Graph.BellmanFord
import DataStructures.Graph.Sums
import DataStructures.Graph.Bfs
import DataStructures.Graph.Dfs
import DataStructures.Graph.Cycles
import DataStructures.Graph.MaxLength
import DataStructures.Graph.CountCycles
import DataStructures.Graph.Agreement
