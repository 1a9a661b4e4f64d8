import DataStructures.Tree.Avl.Balance
import DataStructures.Tree.Avl.Delete
import Mathlib.Data.List.Perm.Subperm

/-!
# The public functions

`Denotes c entry t`: the root of `entry` is the AVL tree `t` in memory.  On such an
entry no function runs out of depth (`depth_lt`), and each does what its recursive
part does.

`Dangling entry`: the root points to a freed node.  No function is defined on such an
entry.
-/

namespace DataStructures.Avl

open Lib Memory Outcomes

variable {K : Type} {c : Comparison K} {k : K} {entry : AvlTreeEntry K} {t : Tree K} {m : Heap K}

theorem Tree.depth_le_length (t : Tree K) : t.depth ≤ t.addrs.length := by
  induction t with
  | nil => exact Nat.le_refl 0
  | node a d l r h ihl ihr =>
    rw [depth, addrs, List.length_cons, List.length_append]
    omega

/-- The distinct nodes of a tree are no more than the addresses handed out. -/
theorem depth_lt (ht : Holds m t) (hn : t.addrs.Nodup) : t.depth < m.next + 1 := by
  have hsub : t.addrs ⊆ List.range m.next := fun a ha => List.mem_range.mpr (ht.lt_next a ha)
  have hlen := (hn.subperm hsub).length_le
  rw [List.length_range] at hlen
  have := t.depth_le_length
  omega

/-- **The root of the entry is the AVL tree `t`.** -/
structure Denotes (c : Comparison K) (entry : AvlTreeEntry K) (t : Tree K) : Prop where
  root : entry.root = t.ptr
  holds : Holds entry.mem t
  nodup : t.addrs.Nodup
  avl : IsAvl c t

theorem Denotes.depth_lt (h : Denotes c entry t) : t.depth < entry.depth :=
  Avl.depth_lt h.holds h.nodup

/-! ### Lookup and destruction -/

theorem avlTreeLookup_spec (ht : Holds m t) (hn : t.addrs.Nodup) (k : K) :
    avlTreeLookup c ⟨m, t.ptr⟩ (some k) = some (if t.found c k then 1 else 0) :=
  lookupHelper_spec ht (Avl.depth_lt ht hn)

theorem Denotes.lookup (h : Denotes c entry t) (k : K) :
    avlTreeLookup c entry (some k) = some (if t.found c k then 1 else 0) := by
  obtain ⟨hroot, ht, hn, _⟩ := h
  obtain ⟨m, root⟩ := entry
  subst hroot
  exact avlTreeLookup_spec ht hn k

theorem Denotes.destroy (h : Denotes c entry t) :
    ∃ m', avlTreeDestroy entry = some m' ∧ (∀ b ∈ t.addrs, m'.cells b = none) ∧
      Only t.addrs entry.mem m' := by
  rw [avlTreeDestroy, h.root]
  exact destroyHelper_spec h.holds h.nodup h.depth_lt

/-! ### Insertion -/

/-- **The insertion that succeeds.** -/
theorem Denotes.insert_ok (h : Denotes c entry t) (hg : t.found c k = true ∨ Creates entry.mem) :
    ∃ entry', avlTreeInsert c entry (some k) = some (0, entry') ∧
      Denotes c entry' (t.insert c k entry.mem.next) ∧
      (entry.mem.outcomes = allOk → entry'.mem.outcomes = allOk) := by
  obtain ⟨p, m', hr, hk, hok, _⟩ := insertHelper_spec (k := k) h.holds h.nodup h.avl.wf.pos h.depth_lt
  obtain ⟨rfl, hH⟩ := hok hg
  have hfresh : entry.mem.next ∉ t.addrs := fun hm => Nat.lt_irrefl _ (h.holds.lt_next _ hm)
  refine ⟨⟨m', (t.insert c k entry.mem.next).ptr⟩, ?_, ⟨rfl, hH, Tree.insert_nodup h.nodup hfresh,
    h.avl.insert k _⟩, hk.allOk⟩
  simp only [avlTreeInsert, h.root, hr, insert_ptr_isNone, Option.bind_eq_bind, Option.bind_some,
    Bool.false_eq_true, if_false]
  rfl

/-- **The insertion that fails.** -/
theorem Denotes.insert_fail (h : Denotes c entry t) (hf : t.found c k = false)
    (hc : ¬ Creates entry.mem) :
    ∃ m', avlTreeInsert c entry (some k) = some (-1, ⟨m', entry.root⟩) ∧ Holds m' (t.cut c k) := by
  obtain ⟨p, m', hr, _, _, hfail⟩ := insertHelper_spec (k := k) h.holds h.nodup h.avl.wf.pos h.depth_lt
  obtain ⟨rfl, hH⟩ := hfail hf hc
  refine ⟨m', ?_, hH⟩
  simp only [avlTreeInsert, h.root, hr, Option.bind_eq_bind, Option.bind_some, Option.isNone_none,
    if_true]
  rfl

/-! ### Deletion -/

/-- **The deletion whose result is not NULL.** -/
theorem Denotes.delete_some (h : Denotes c entry t) (hne : (t.delete c k entry.mem.outcomes).1 ≠ .nil) :
    ∃ m', avlTreeDelete c entry (some k) =
        some (0, ⟨m', (t.delete c k entry.mem.outcomes).1.ptr⟩) ∧
      Deleted entry.mem t (t.delete c k entry.mem.outcomes).1 (t.delete c k entry.mem.outcomes).2
        m' := by
  obtain ⟨m', hr, hd⟩ := deleteHelper_spec (c := c) (k := k) h.holds h.nodup h.avl.wf.pos h.depth_lt
  refine ⟨m', ?_, hd⟩
  have hnone : (t.delete c k entry.mem.outcomes).1.ptr.isNone = false := by
    rw [← Option.not_isSome, Tree.ptr_isSome, Tree.isNil_eq_false.mpr hne]
    rfl
  simp only [avlTreeDelete, h.root, hr, hnone, Option.bind_eq_bind, Option.bind_some,
    Bool.false_eq_true, if_false]
  rfl

/-- A deletion returns. -/
theorem Denotes.delete_returns (h : Denotes c entry t) (k : K) :
    ∃ ret entry', avlTreeDelete c entry (some k) = some (ret, entry') := by
  obtain ⟨m', hr, _⟩ := deleteHelper_spec (c := c) (k := k) h.holds h.nodup h.avl.wf.pos h.depth_lt
  simp only [avlTreeDelete, h.root, hr, Option.bind_eq_bind, Option.bind_some]
  split
  · exact ⟨-1, _, rfl⟩
  · exact ⟨0, _, rfl⟩

/-- When the result is NULL, the root is not altered. -/
theorem Denotes.delete_null (h : Denotes c entry t) {m' : Heap K}
    (hr : avlTreeDeleteHelper c (entry.mem.next + 1) entry.mem t.ptr k = some (none, m')) :
    avlTreeDelete c entry (some k) = some (-1, ⟨m', entry.root⟩) := by
  simp only [avlTreeDelete, AvlTreeEntry.depth, h.root, hr, Option.bind_eq_bind, Option.bind_some,
    Option.isNone_none, if_true]
  rfl

theorem Denotes.delete_nil (h : Denotes c entry .nil) :
    avlTreeDelete c entry (some k) = some (-1, entry) := h.delete_null rfl

/-- The root points to a freed node. -/
def Dangling (entry : AvlTreeEntry K) : Prop := ∃ a, entry.root = some a ∧ entry.mem.cells a = none

/-- **The deletion of the only element** frees the root and leaves the pointer to it. -/
theorem Denotes.delete_leaf {a : Nat} {d : K} {i : Int} (h : Denotes c entry (.node a d .nil .nil i))
    (he : c.cmp k d = 0) :
    ∃ entry', avlTreeDelete c entry (some k) = some (-1, entry') ∧ Dangling entry' ∧
      entry'.mem.outcomes = entry.mem.outcomes := by
  obtain ⟨m', hr, hc, ho⟩ := deleteHelper_leaf (n := entry.mem.next) h.holds he
  exact ⟨_, h.delete_null hr, ⟨a, h.root, hc⟩, ho.outcomes⟩

/-- **The deletion at the root that fails to copy a datum** leaves a root without
data, on which no lookup is defined. -/
theorem Denotes.delete_fail {a : Nat} {d : K} {l r : Tree K} {i : Int}
    (h : Denotes c entry (.node a d l r i)) (he : c.cmp k d = 0) (hne : l ≠ .nil ∨ r ≠ .nil)
    (hf : entry.mem.outcomes.first = false) :
    ∃ entry', avlTreeDelete c entry (some k) = some (-1, entry') ∧
      ∀ k', avlTreeLookup c entry' (some k') = none := by
  have hdepth := h.depth_lt
  rw [AvlTreeEntry.depth, Tree.depth] at hdepth
  obtain ⟨m', hr, ⟨x, hx, hdata⟩, _⟩ :=
    deleteHelper_fail (n := entry.mem.next) h.holds he hne hf (by omega)
  refine ⟨_, h.delete_null hr, fun k' => ?_⟩
  simp only [avlTreeLookup, AvlTreeEntry.depth, h.root, Tree.ptr_node, avlTreeLookupHelper, load, hx,
    hdata, Option.bind_eq_bind, Option.bind_some, Option.bind_none]

/-! ### Dangling entries -/

theorem Dangling.insert (h : Dangling entry) : avlTreeInsert c entry (some k) = none := by
  obtain ⟨a, hroot, hc⟩ := h
  simp only [avlTreeInsert, AvlTreeEntry.depth, hroot, avlTreeInsertHelper, load, hc,
    Option.bind_eq_bind, Option.bind_none]

theorem Dangling.delete (h : Dangling entry) : avlTreeDelete c entry (some k) = none := by
  obtain ⟨a, hroot, hc⟩ := h
  simp only [avlTreeDelete, AvlTreeEntry.depth, hroot, avlTreeDeleteHelper, load, hc,
    Option.bind_eq_bind, Option.bind_none]

end DataStructures.Avl
