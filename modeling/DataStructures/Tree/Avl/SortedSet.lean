import DataStructures.Tree.Avl.Run

/-!
# The recursive functions on the sequence of a tree

`__avl_tree_insert`, `__avl_tree_delete` and `__avl_tree_lookup` on any AVL tree in memory,
whatever its shape and where the key is: what they do to the in-order sequence.
-/

namespace DataStructures.Avl

open Lib Memory Outcomes

variable {K : Type} {c : Comparison K} {k : K} {m : Heap K} {t : Tree K} {n : Nat} {l l' : List K}

/-- `l'` is `l` with `k` at its place, or `l` if an equal key is there. -/
structure Inserts (c : Comparison K) (k : K) (l l' : List K) : Prop where
  sorted : Sorted c l'
  present : Occurs c k l → l' = l
  absent : ¬ Occurs c k l → ∃ u v, l = u ++ v ∧ l' = u ++ k :: v

/-- `l'` is `l` without the key equal to `k`, or `l` if there is none. -/
structure Erases (c : Comparison K) (k : K) (l l' : List K) : Prop where
  present : ∀ u d v, l = u ++ d :: v → c.cmp k d = 0 → l' = u ++ v
  absent : ¬ Occurs c k l → l' = l

/-- The tree `t'` in memory, at the pointer `p`, with all that an AVL tree is. -/
structure Stands (c : Comparison K) (m : Heap K) (p : Ptr) (t : Tree K) : Prop where
  ptr : p = t.ptr
  holds : Holds m t
  nodup : t.addrs.Nodup
  avl : IsAvl c t

theorem inserts_insertSeq (hs : Sorted c l) : Inserts c k l (insertSeq c k l) where
  sorted := hs.insertSeq
  present := insertSeq_of_occurs hs
  absent := insertSeq_of_not_occurs

theorem erases_eraseSeq (hs : Sorted c l) : Erases c k l (eraseSeq c k l) where
  present := by
    rintro u d v rfl hkd
    exact eraseSeq_eq (sorted_middle.mp hs).2.2.1 hkd
  absent := eraseSeq_of_not_occurs

/-- **The insertion.** -/
theorem insertHelper_sortedSet (h : Stands c m t.ptr t) (ho : m.outcomes = allOk)
    (hd : t.depth < n) : ∃ p m' t', avlTreeInsertHelper c n m t.ptr k = some (p, m') ∧
      Stands c m' p t' ∧ Inserts c k t.toList t'.toList := by
  obtain ⟨p, m', hr, hi⟩ := insertHelper_spec (k := k) h.holds h.nodup h.avl.wf.pos hd
  have hc : Creates m := by
    rw [Creates, ho]
    exact ⟨rfl, rfl⟩
  obtain ⟨hp, hm'⟩ := hi.ok (.inr hc)
  have hfresh : m.next ∉ t.addrs := fun hm => Nat.lt_irrefl _ (h.holds.lt_next _ hm)
  refine ⟨p, m', _, hr, ⟨hp, hm', Tree.insert_nodup h.nodup hfresh, h.avl.insert k _⟩, ?_⟩
  rw [Tree.insert_toList _ h.avl.sorted]
  exact inserts_insertSeq h.avl.sorted

/-- **The deletion**; it is NULL if nothing is left. -/
theorem deleteHelper_sortedSet (h : Stands c m t.ptr t) (ho : m.outcomes = allOk)
    (hd : t.depth < n) : ∃ p m' t', avlTreeDeleteHelper c n m t.ptr k = some (p, m') ∧
      Stands c m' p t' ∧ Erases c k t.toList t'.toList ∧ (p = none ↔ t'.toList = []) := by
  obtain ⟨m', hr, hdel⟩ := deleteHelper_spec (c := c) (k := k) h.holds h.nodup h.avl.wf.pos hd
  rw [ho] at hr hdel
  refine ⟨_, m', _, hr, ⟨rfl, hdel.holds, Tree.delete_nodup k _ h.nodup, h.avl.delete k⟩, ?_, ?_⟩
  · rw [Tree.delete_toList k h.avl.sorted]
    exact erases_eraseSeq h.avl.sorted
  · rw [Tree.ptr_eq_none, Tree.toList_eq_nil]

/-- **The AVL functions implement a sorted set.**  On every AVL tree in memory and for every
key, with allocations succeeding and depth enough: the insertion puts the key at its place in the in-order
sequence, the deletion takes the equal key out of it, the lookup returns 1 if there is one
and 0 if not. -/
theorem avlTree_sortedSet (c : Comparison K) (m : Heap K) (p : Ptr) (t : Tree K) (n : Nat) (k : K)
    (h : Stands c m p t) (ho : m.outcomes = allOk) (hd : t.depth < n) :
    (∃ p' m' t', avlTreeInsertHelper c n m p k = some (p', m') ∧ Stands c m' p' t' ∧
      Inserts c k t.toList t'.toList) ∧
    (∃ p' m' t', avlTreeDeleteHelper c n m p k = some (p', m') ∧ Stands c m' p' t' ∧
      Erases c k t.toList t'.toList ∧ (p' = none ↔ t'.toList = [])) ∧
    ∃ ret, avlTreeLookupHelper c n m p k = some ret ∧ (ret = 1 ↔ Occurs c k t.toList) ∧
      (ret = 0 ↔ ¬ Occurs c k t.toList) := by
  obtain rfl := h.ptr
  refine ⟨insertHelper_sortedSet h ho hd, deleteHelper_sortedSet h ho hd, _,
    lookupHelper_spec h.holds hd, ?_⟩
  rw [← Tree.found_iff h.avl.sorted]
  cases t.found c k with
  | true => decide
  | false => decide

/-- The tree of `fiveEntry`. -/
def fiveTree : Tree Int :=
  .node 0 4 (.node 1 3 (.node 3 1 .nil .nil 1) .nil 2) (.node 2 6 .nil (.node 5 7 .nil .nil 1) 2) 3

theorem stands_fiveTree : Stands intComparison fiveEntry.mem (some 0) fiveTree := by
  refine ⟨rfl, ?_, by decide, ?_, ?_, ?_⟩
  · exact ⟨rfl, ⟨rfl, ⟨rfl, trivial, trivial⟩, trivial⟩, rfl, trivial, rfl, trivial, trivial⟩
  · show Sorted intComparison [1, 3, 4, 6, 7]
    unfold Sorted
    decide
  · exact ⟨rfl, ⟨rfl, ⟨rfl, trivial, trivial⟩, trivial⟩, rfl, trivial, rfl, trivial, trivial⟩
  · simp [fiveTree, Tree.Balanced, Tree.depth]

/-- The key is the one at the root. -/
theorem avlTree_sortedSet_fiveEntry :
    (∃ p' m' t', avlTreeInsertHelper intComparison 4 fiveEntry.mem (some 0) 4 = some (p', m') ∧
      Stands intComparison m' p' t' ∧ Inserts intComparison 4 [1, 3, 4, 6, 7] t'.toList) ∧
    (∃ p' m' t', avlTreeDeleteHelper intComparison 4 fiveEntry.mem (some 0) 4 = some (p', m') ∧
      Stands intComparison m' p' t' ∧ Erases intComparison 4 [1, 3, 4, 6, 7] t'.toList ∧
      (p' = none ↔ t'.toList = [])) ∧
    ∃ ret, avlTreeLookupHelper intComparison 4 fiveEntry.mem (some 0) 4 = some ret ∧
      (ret = 1 ↔ Occurs intComparison 4 [1, 3, 4, 6, 7]) ∧
      (ret = 0 ↔ ¬ Occurs intComparison 4 [1, 3, 4, 6, 7]) :=
  avlTree_sortedSet intComparison fiveEntry.mem (some 0) fiveTree 4 4 stands_fiveTree
    (fiveEntry_run (fun _ _ => True) trivial).inv.1 (by decide)

end DataStructures.Avl
