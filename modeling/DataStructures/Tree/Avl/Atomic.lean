import DataStructures.Tree.Avl.Run

/-!
# Failed updates

When an allocation fails, `avl_tree_insert` and `avl_tree_delete` return -1 and do
not alter the root.  `Atomic c call entry` says that the elements, too, are then the
ones before the call.

`avlTree_atomic_iff`: **when this holds**.  On the way back from a failed insertion
the child of the root on the side of the key is overwritten with NULL
(`found_cut`), so it holds only if there was none.  A deletion fails only when it has
freed the datum of the root and could not copy another, so it never holds of a
deletion that fails.
-/

namespace DataStructures.Avl

open Lib Memory Outcomes

variable {K : Type} {c : Comparison K} {key : K} {entry : AvlTreeEntry K} {t : Tree K}

/-- The entry, if all allocations to come succeed. -/
def AvlTreeEntry.unfailing (entry : AvlTreeEntry K) : AvlTreeEntry K :=
  { entry with mem := { entry.mem with outcomes := allOk } }

/-- The call fails because an allocation does: it returns -1, and would return 0 if
all succeeded. -/
def AllocFails (call : AvlTreeEntry K → Option (Int × AvlTreeEntry K))
    (entry entry' : AvlTreeEntry K) : Prop :=
  call entry = some (-1, entry') ∧ ∃ e, call entry.unfailing = some (0, e)

theorem not_allocFails {call : AvlTreeEntry K → Option (Int × AvlTreeEntry K)}
    {entry' e : AvlTreeEntry K} (h : call entry = some (0, e) ∨ call entry.unfailing = some (-1, e)) :
    ¬ AllocFails call entry entry' := by
  rintro ⟨hr, e', hr'⟩
  rcases h with h | h
  · rw [h, Option.some.injEq, Prod.mk.injEq] at hr
    exact absurd hr.1 (by decide)
  · rw [h, Option.some.injEq, Prod.mk.injEq] at hr'
    exact absurd hr'.1 (by decide)

/-- **If an allocation fails, lookups find what they found before.** -/
def Atomic (c : Comparison K) (call : AvlTreeEntry K → Option (Int × AvlTreeEntry K))
    (entry : AvlTreeEntry K) : Prop :=
  ∀ entry', AllocFails call entry entry' →
    ∀ k, avlTreeLookup c entry' (some k) = avlTreeLookup c entry (some k)

theorem Denotes.unfailing (h : Denotes c entry t) : Denotes c entry.unfailing t :=
  ⟨h.root, Holds.congr (m := entry.mem) (fun _ _ => rfl) h.holds, h.nodup, h.avl⟩

namespace Tree

/-- The child of the root on the side of `k`. -/
def towards (c : Comparison K) (k : K) : Tree K → Tree K
  | nil => nil
  | node _ d l r _ => if c.cmp k d < 0 then l else r

/-- `k` is at the root, and the root has a child. -/
def InnerRoot (c : Comparison K) (k : K) : Tree K → Prop
  | nil => False
  | node _ d l r _ => c.cmp k d = 0 ∧ (l ≠ nil ∨ r ≠ nil)

/-! ### What a failed insertion leaves -/

theorem cut_ptr (t : Tree K) : (t.cut c key).ptr = t.ptr := by
  cases t with
  | nil => rfl
  | node a d l r h =>
    rw [cut]
    split <;> rfl

theorem cut_nodup (h : t.addrs.Nodup) : (t.cut c key).addrs.Nodup := by
  cases t with
  | nil => exact h
  | node a d l r i =>
    obtain ⟨hal, har, hnl, hnr, _⟩ := nodup_node.mp h
    rw [cut]
    split
    · exact nodup_node.mpr ⟨List.not_mem_nil, har, List.nodup_nil, hnr, List.disjoint_nil_left _⟩
    · exact nodup_node.mpr ⟨hal, List.not_mem_nil, hnl, List.nodup_nil, List.disjoint_nil_right _⟩

theorem cut_eq (h : t.towards c key = nil) : t.cut c key = t := by
  cases t with
  | nil => rfl
  | node a d l r i =>
    rw [towards] at h
    rw [cut]
    split at h
    next h1 => rw [if_pos h1, h]
    next h1 => rw [if_neg h1, h]

/-- **The elements on the side of the key are lost.** -/
theorem found_cut {x : K} (hs : Sorted c t.toList) (hx : x ∈ (t.towards c key).toList) :
    t.found c x = true ∧ (t.cut c key).found c x = false := by
  cases t with
  | nil => exact absurd hx List.not_mem_nil
  | node a d l r i =>
    obtain ⟨_, _, hld, hdr⟩ := sorted_middle.mp hs
    rw [found_iff hs, toList, occurs_middle]
    rw [towards] at hx
    rw [cut]
    split at hx
    next h1 =>
      rw [if_pos h1, found, if_pos (hld x hx)]
      exact ⟨Or.inl ⟨x, hx, c.self x⟩, rfl⟩
    next h1 =>
      have hgt := (c.swap d x).mp (hdr x hx)
      rw [if_neg h1, found, if_neg (by omega), if_pos hgt]
      exact ⟨Or.inr (Or.inr ⟨x, hx, c.self x⟩), rfl⟩

/-! ### When a deletion returns NULL -/

theorem balance_node_ne_nil {a : Nat} {d : K} {l r : Tree K} {i : Int} :
    (node a d l r i).balance ≠ nil := balance_ne_nil nofun

theorem moveTo_ne_nil {a : Nat} (h : t ≠ nil) : t.moveTo a ≠ nil := by
  cases t with
  | nil => exact absurd rfl h
  | node b d l r i => exact nofun

/-- A deletion from a node returns NULL only if the node is a leaf with that datum, or
the first allocation fails at such a node. -/
theorem delete_eq_nil {o : Outcomes} (h : (t.delete c key o).1 = nil) :
    t = nil ∨ (∃ a d i, t = node a d nil nil i ∧ c.cmp key d = 0) ∨
      t.InnerRoot c key ∧ o.first = false := by
  cases t with
  | nil => exact Or.inl rfl
  | node a d l r i =>
    apply Or.inr
    rw [delete] at h
    split at h
    · exact absurd h (balance_node_ne_nil (i := i))
    · split at h
      · exact absurd h (balance_node_ne_nil (i := i))
      · have he : c.cmp key d = 0 := by omega
        cases hf : o.first
        · by_cases hl : l = nil
          · by_cases hr : r = nil
            · subst hl hr
              exact Or.inl ⟨a, d, i, rfl, he⟩
            · exact Or.inr ⟨⟨he, Or.inr hr⟩, rfl⟩
          · exact Or.inr ⟨⟨he, Or.inl hl⟩, rfl⟩
        · rw [hf] at h
          cases hl : l.isNil <;> cases hr : r.isNil <;>
            simp only [hl, hr, Bool.and_self, Bool.and_true, Bool.and_false, Bool.not_true,
              Bool.false_eq_true, if_true, if_false] at h
          · exact absurd h balance_node_ne_nil
          · exact absurd h (balance_ne_nil (moveTo_ne_nil (isNil_eq_false.mp hl)))
          · exact absurd h (balance_ne_nil (moveTo_ne_nil (isNil_eq_false.mp hr)))
          · rw [isNil_iff] at hl hr
            subst hl hr
            exact Or.inl ⟨a, d, i, rfl, he⟩

end Tree

/-! ### The two updates -/

/-- **A failed insertion** loses the elements on the side of the key. -/
theorem insert_atomic_iff (h : Denotes c entry t) (key : K) :
    Atomic c (fun e => avlTreeInsert c e (some key)) entry ↔
      Creates entry.mem ∨ Occurs c key t.toList ∨ t.towards c key = .nil := by
  by_cases hgood : t.found c key = true ∨ Creates entry.mem
  · -- the insertion succeeds
    obtain ⟨entry₁, hr, _⟩ := h.insert_ok hgood
    rw [Tree.found_iff h.avl.sorted] at hgood
    refine ⟨fun _ => hgood.elim (fun ho => Or.inr (Or.inl ho)) Or.inl, fun _ entry' hfail => ?_⟩
    exact absurd hfail (not_allocFails (Or.inl hr))
  · push Not at hgood
    obtain ⟨hf, hc⟩ := hgood
    have hf' : t.found c key = false := Bool.not_eq_true _ ▸ hf
    obtain ⟨m', hr, hH⟩ := h.insert_fail hf' hc
    have hlookup : ∀ k, avlTreeLookup c ⟨m', entry.root⟩ (some k) =
        some (if (t.cut c key).found c k then 1 else 0) := by
      rw [h.root, show t.ptr = (t.cut c key).ptr from (Tree.cut_ptr t).symm]
      exact avlTreeLookup_spec hH (Tree.cut_nodup h.nodup)
    rw [ne_eq, Tree.found_iff h.avl.sorted] at hf
    rw [or_iff_right hc, or_iff_right hf]
    refine ⟨?_, ?_⟩
    · intro hat
      by_contra hne
      obtain ⟨x, hx⟩ := List.exists_mem_of_ne_nil _ (mt Tree.toList_eq_nil.mp hne)
      obtain ⟨h1, h2⟩ := Tree.found_cut h.avl.sorted hx
      obtain ⟨entry₁, hr₁, _⟩ := h.unfailing.insert_ok (k := key) (Or.inr ⟨rfl, rfl⟩)
      have heq := hat _ ⟨hr, entry₁, hr₁⟩ x
      rw [hlookup, h.lookup, h1, h2] at heq
      exact absurd heq (by decide)
    · intro hnil entry' hfail k
      have hr' : avlTreeInsert c entry (some key) = some (-1, entry') := hfail.1
      rw [hr, Option.some.injEq, Prod.mk.injEq] at hr'
      rw [← hr'.2, hlookup, Tree.cut_eq hnil, h.lookup]

/-- **A failed deletion** leaves a root without data. -/
theorem delete_atomic_iff (h : Denotes c entry t) (key : K) :
    Atomic c (fun e => avlTreeDelete c e (some key)) entry ↔
      ¬ (t.InnerRoot c key ∧ entry.mem.outcomes.first = false) := by
  constructor
  · rintro hat ⟨hin, hf⟩
    obtain _ | ⟨a, d, l, r, i⟩ := t
    · exact hin
    obtain ⟨he, hne⟩ := hin
    obtain ⟨entry', hr, hnone⟩ := h.delete_fail he hne hf
    have hres : ((Tree.node a d l r i).delete c key allOk).1 ≠ .nil := by
      intro hnil
      rcases Tree.delete_eq_nil hnil with hn | ⟨b, e, j, hn, _⟩ | ⟨_, hfalse⟩
      · exact absurd hn nofun
      · injection hn with _ _ hl hr'
        exact hne.elim (absurd hl) (absurd hr')
      · exact absurd hfalse (by decide)
    obtain ⟨m₁, hr₁, _⟩ := h.unfailing.delete_some hres
    have heq := hat entry' ⟨hr, _, hr₁⟩ key
    rw [hnone, h.lookup] at heq
    exact absurd heq.symm (Option.some_ne_none _)
  · intro hno entry' hfail
    exfalso
    by_cases hnil : (t.delete c key entry.mem.outcomes).1 = .nil
    · rcases Tree.delete_eq_nil hnil with rfl | ⟨a, d, i, rfl, he⟩ | hin
      · -- nothing to delete, whatever the allocations
        exact not_allocFails (Or.inr h.unfailing.delete_nil) hfail
      · -- the only element, whatever the allocations
        obtain ⟨e, hr, _⟩ := h.unfailing.delete_leaf he
        exact not_allocFails (Or.inr hr) hfail
      · exact hno hin
    · obtain ⟨m', hr, _⟩ := h.delete_some hnil
      exact not_allocFails (Or.inl hr) hfail

/-- **When a failed update leaves the elements as they were.**  An insertion: exactly
if the node can be created, the key is there, or the root has no child on its side.
A deletion: exactly if it does not fail at a root with that key and a child. -/
theorem avlTree_atomic_iff (c : Comparison K) (entry : AvlTreeEntry K) (t : Tree K)
    (h : Denotes c entry t) (key : K) :
    (Atomic c (fun e => avlTreeInsert c e (some key)) entry ↔
      Creates entry.mem ∨ Occurs c key t.toList ∨ t.towards c key = .nil) ∧
    (Atomic c (fun e => avlTreeDelete c e (some key)) entry ↔
      ¬ (t.InnerRoot c key ∧ entry.mem.outcomes.first = false)) :=
  ⟨insert_atomic_iff h key, delete_atomic_iff h key⟩

/-! ### An example -/

/-- The tree with `1` at the root and `2` on its right. -/
def pairTree : Tree Int := .node 0 1 .nil (.node 1 2 .nil .nil 1) 2

/-- The tree in memory, when every allocation to come fails. -/
def pairEntry : AvlTreeEntry Int where
  mem :=
    { cells := Function.update (Function.update (fun _ => none) 0 (some ⟨some 1, none, some 1, 2⟩)) 1
        (some ⟨some 2, none, none, 1⟩)
      next := 2
      outcomes := fun _ => false
      fresh := fun a ha => by
        rw [Function.update_of_ne (by omega), Function.update_of_ne (by omega)] }
  root := some 0

theorem pairEntry_denotes : Denotes intComparison pairEntry pairTree where
  root := rfl
  holds := ⟨rfl, trivial, rfl, trivial, trivial⟩
  nodup := by decide
  avl :=
    { sorted := by
        rw [Sorted, show pairTree.toList = [1, 2] from rfl, List.pairwise_pair]
        decide
      exact := ⟨rfl, trivial, rfl, trivial, trivial⟩
      balanced := ⟨by decide, by decide, trivial, by decide, by decide, trivial, trivial⟩ }

theorem avlTree_atomic_iff_pairEntry :
    (Atomic intComparison (fun e => avlTreeInsert intComparison e (some 3)) pairEntry ↔
      Creates pairEntry.mem ∨ Occurs intComparison 3 pairTree.toList ∨
        pairTree.towards intComparison 3 = .nil) ∧
    (Atomic intComparison (fun e => avlTreeDelete intComparison e (some 3)) pairEntry ↔
      ¬ (pairTree.InnerRoot intComparison 3 ∧ pairEntry.mem.outcomes.first = false)) :=
  avlTree_atomic_iff intComparison pairEntry pairTree pairEntry_denotes 3

/-- **Failed updates that are not atomic**: when `3` cannot be inserted, `2` is lost;
when `1` cannot be deleted, the next lookup is undefined. -/
theorem avlTree_not_atomic :
    Denotes intComparison pairEntry pairTree ∧
      (∃ entry', AllocFails (fun e => avlTreeInsert intComparison e (some 3)) pairEntry entry' ∧
        avlTreeLookup intComparison pairEntry (some 2) = some 1 ∧
        avlTreeLookup intComparison entry' (some 2) = some 0) ∧
      ∃ entry', AllocFails (fun e => avlTreeDelete intComparison e (some 1)) pairEntry entry' ∧
        avlTreeLookup intComparison pairEntry (some 2) = some 1 ∧
        avlTreeLookup intComparison entry' (some 2) = none :=
  ⟨pairEntry_denotes, ⟨_, ⟨rfl, _, rfl⟩, rfl, rfl⟩, ⟨_, ⟨rfl, _, rfl⟩, rfl, rfl⟩⟩

end DataStructures.Avl
