import DataStructures.Tree.Avl.Run
import Mathlib.Data.Nat.Fib.Zeckendorf
import Mathlib.Data.Nat.Log

/-!
# The height of the AVL tree

A balanced tree of height `h` has at least `fib (h + 2) - 1` nodes, so its height is
logarithmic in the number of its nodes, and with it the number of comparisons of a
lookup.

* `avlTreeLookupCalls`: `avl_tree_lookup`, with the number of calls of `_cmp`.
* `Tree.Balanced.fib_le`: **the smallest tree of each height**.
* `avlTree_height_bound`: **after any run the stored height of the root, and the
  number of comparisons of every lookup, keep to that bound**.
-/

namespace DataStructures.Avl

open Lib Memory

variable {K : Type} {c : Comparison K} {k : K} {m : Heap K} {entry : AvlTreeEntry K} {t : Tree K}

/-! ### Counting the comparisons -/

/-- `__avl_tree_lookup`, with the number of calls of `_cmp`. -/
def avlTreeLookupHelperCalls (c : Comparison K) : Nat → Heap K → Ptr → K → Option (Int × Nat)
  | 0, _, _, _ => none
  | _ + 1, _, none, _ => some (0, 0)
  | depth + 1, m, some a, data => do
      let n ← m.load (some a)
      let d ← n.data
      if c.cmp data d < 0 then
        let (ret, calls) ← avlTreeLookupHelperCalls c depth m n.left data
        return (ret, calls + 1)
      else if 0 < c.cmp data d then
        let (ret, calls) ← avlTreeLookupHelperCalls c depth m n.right data
        return (ret, calls + 1)
      else return (1, 1)

/-- `avl_tree_lookup`, with the number of calls of `_cmp`. -/
def avlTreeLookupCalls (c : Comparison K) (entry : AvlTreeEntry K) (data : Option K) :
    Option (Int × Nat) :=
  match data with
  | none => some (0, 0)
  | some data => avlTreeLookupHelperCalls c entry.depth entry.mem entry.root data

/-- Counting changes nothing. -/
theorem avlTreeLookupHelperCalls_fst : ∀ (n : Nat) (p : Ptr),
    (avlTreeLookupHelperCalls c n m p k).map Prod.fst = avlTreeLookupHelper c n m p k := by
  intro n
  induction n with
  | zero => intro p; rfl
  | succ n ih =>
    intro p
    cases p with
    | none => rfl
    | some a =>
      rw [avlTreeLookupHelperCalls, avlTreeLookupHelper]
      cases m.load (some a) with
      | none => rfl
      | some x =>
        simp only [Option.bind_eq_bind, Option.bind_some, Option.pure_def]
        cases x.data with
        | none => rfl
        | some d =>
          simp only [Option.bind_some]
          split
          · rw [← ih x.left, Option.map_bind, Option.map_eq_bind]
            rfl
          split
          · rw [← ih x.right, Option.map_bind, Option.map_eq_bind]
            rfl
          · rfl

theorem avlTreeLookupCalls_fst (data : Option K) :
    (avlTreeLookupCalls c entry data).map Prod.fst = avlTreeLookup c entry data := by
  cases data with
  | none => rfl
  | some data => exact avlTreeLookupHelperCalls_fst _ _

/-- On a tree in memory a lookup makes no more comparisons than the tree has levels. -/
theorem lookupHelperCalls_spec : ∀ {t : Tree K} {n : Nat}, Holds m t → t.depth < n →
    ∃ ret calls, avlTreeLookupHelperCalls c n m t.ptr k = some (ret, calls) ∧ calls ≤ t.depth := by
  intro t
  induction t with
  | nil =>
    intro n _ hn
    obtain ⟨n, rfl⟩ : ∃ i, n = i + 1 := ⟨n - 1, by omega⟩
    exact ⟨0, 0, rfl, Nat.le_refl 0⟩
  | node a d l r h ihl ihr =>
    intro n ht hn
    obtain ⟨n, rfl⟩ : ∃ i, n = i + 1 := ⟨n - 1, by omega⟩
    rw [Tree.depth] at hn ⊢
    obtain ⟨retl, callsl, hl, hlc⟩ := ihl (n := n) ht.2.1 (by omega)
    obtain ⟨retr, callsr, hr, hrc⟩ := ihr (n := n) ht.2.2 (by omega)
    simp only [Tree.ptr_node, avlTreeLookupHelperCalls, load, ht.1, Option.bind_eq_bind,
      Option.bind_some, hl, hr, Option.pure_def]
    split
    · exact ⟨retl, callsl + 1, rfl, by omega⟩
    split
    · exact ⟨retr, callsr + 1, rfl, by omega⟩
    · exact ⟨1, 1, rfl, by omega⟩

theorem Denotes.lookupCalls (h : Denotes c entry t) (k : K) :
    ∃ ret calls, avlTreeLookupCalls c entry (some k) = some (ret, calls) ∧ calls ≤ t.depth := by
  rw [avlTreeLookupCalls, h.root]
  exact lookupHelperCalls_spec h.holds h.depth_lt

/-! ### The smallest tree of each height -/

/-- The Fibonacci numbers grow by a factor of two in two steps. -/
theorem two_pow_le_fib (n : Nat) : 2 ^ n ≤ Nat.fib (2 * n + 2) := by
  induction n with
  | zero => exact Nat.le_refl 1
  | succ n ih =>
    have hadd : Nat.fib (2 * (n + 1) + 2) = Nat.fib (2 * n + 2) + Nat.fib (2 * n + 3) :=
      Nat.fib_add_two
    have hmono : Nat.fib (2 * n + 2) ≤ Nat.fib (2 * n + 3) := Nat.fib_mono (by omega)
    rw [pow_succ]
    omega

/-- **A balanced tree of height `h` has at least `fib (h + 2) - 1` elements.** -/
theorem Tree.Balanced.fib_le (h : t.Balanced) : Nat.fib (t.depth + 2) ≤ t.toList.length + 1 := by
  induction t with
  | nil => exact Nat.le_refl 1
  | node a d l r i ihl ihr =>
    obtain ⟨hlr, hrl, hl, hr⟩ := h
    have hfl := ihl hl
    have hfr := ihr hr
    rw [Tree.depth, Tree.toList, List.length_append, List.length_cons]
    -- one child is a level lower, the other no more than two
    rcases Nat.le_total l.depth r.depth with hle | hle
    · have hadd : Nat.fib (1 + max l.depth r.depth + 2) =
          Nat.fib (r.depth + 1) + Nat.fib (r.depth + 2) := by
        rw [Nat.max_eq_right hle, show 1 + r.depth + 2 = (r.depth + 1) + 2 by omega, Nat.fib_add_two]
      have hmono : Nat.fib (r.depth + 1) ≤ Nat.fib (l.depth + 2) := Nat.fib_mono (by omega)
      omega
    · have hadd : Nat.fib (1 + max l.depth r.depth + 2) =
          Nat.fib (l.depth + 1) + Nat.fib (l.depth + 2) := by
        rw [Nat.max_eq_left hle, show 1 + l.depth + 2 = (l.depth + 1) + 2 by omega, Nat.fib_add_two]
      have hmono : Nat.fib (l.depth + 1) ≤ Nat.fib (r.depth + 2) := Nat.fib_mono (by omega)
      omega

/-- There is a largest height a balanced tree of `n` nodes can have. -/
theorem isGreatest_greatestFib (n : Nat) :
    IsGreatest {h | Nat.fib (h + 2) ≤ n + 1} ((n + 1).greatestFib - 2) := by
  have htwo : 2 ≤ (n + 1).greatestFib := by
    rw [Nat.le_greatestFib, Nat.fib_two]
    omega
  refine ⟨?_, fun h hh => ?_⟩
  · change Nat.fib ((n + 1).greatestFib - 2 + 2) ≤ n + 1
    rw [Nat.sub_add_cancel htwo]
    exact Nat.le_greatestFib.mp (Nat.le_refl _)
  · have hle : h + 2 ≤ (n + 1).greatestFib := Nat.le_greatestFib.mpr hh
    omega

theorem le_log_of_fib_le {h n : Nat} (hf : Nat.fib (h + 2) ≤ n + 1) :
    h ≤ 2 * Nat.log 2 (n + 1) + 1 := by
  have hmono : Nat.fib (2 * (h / 2) + 2) ≤ Nat.fib (h + 2) := Nat.fib_mono (by omega)
  have hpow : 2 ^ (h / 2) ≤ n + 1 := ((two_pow_le_fib _).trans hmono).trans hf
  have hlog : h / 2 ≤ Nat.log 2 (n + 1) := Nat.le_log_of_pow_le (by decide) hpow
  omega

/-! ### After a run -/

theorem Tree.length_addrs (t : Tree K) : t.addrs.length = t.toList.length := by
  induction t with
  | nil => rfl
  | node a d l r h ihl ihr =>
    rw [addrs, toList, List.length_cons, List.length_append, List.length_append, List.length_cons,
      ihl, ihr]
    omega

theorem Denotes.height (h : Denotes c entry t) :
    avlNodeGetHeight entry.mem entry.root = some (t.depth : Int) := by
  rw [h.root, ← h.avl.exact.ht_eq]
  cases t with
  | nil => rfl
  | node a d l r i =>
    simp only [Tree.ptr_node, avlNodeGetHeight, load, h.holds.1, Option.bind_eq_bind,
      Option.bind_some, Tree.ht_node, Option.pure_def]

/-- **The height is logarithmic.**  After a run that never deletes an only element,
the root is a tree of `n` nodes in memory, its stored height `h` has
`fib (h + 2) ≤ n + 1`, and a lookup of any key makes at most `h` comparisons, hence
no more than the largest number with this property, which is logarithmic in `n`. -/
theorem avlTree_height_bound (c : Comparison K) (entry : AvlTreeEntry K) (l : List K)
    (h : Run c (fun l data => ¬ Sole c data l) entry l) :
    ∃ (t : Tree K) (n height bound : Nat), entry.root = t.ptr ∧ Holds entry.mem t ∧
      t.addrs.Nodup ∧ t.addrs.length = n ∧ t.toList = l ∧
      avlNodeGetHeight entry.mem entry.root = some (height : Int) ∧
      Nat.fib (height + 2) ≤ n + 1 ∧
      IsGreatest {h | Nat.fib (h + 2) ≤ n + 1} bound ∧ bound ≤ 2 * Nat.log 2 (n + 1) + 1 ∧
      ∀ key, ∃ ret calls, avlTreeLookupCalls c entry (some key) = some (ret, calls) ∧
        calls ≤ height ∧ calls ≤ bound := by
  obtain ⟨_, ⟨t, hd, hl⟩ | ⟨_, _, _, _, hok, hs⟩⟩ := h.inv
  · have hfib : Nat.fib (t.depth + 2) ≤ t.addrs.length + 1 := by
      rw [t.length_addrs]
      exact hd.avl.balanced.fib_le
    have hgreatest := isGreatest_greatestFib t.addrs.length
    refine ⟨t, t.addrs.length, t.depth, (t.addrs.length + 1).greatestFib - 2, hd.root, hd.holds,
      hd.nodup, rfl, hl, hd.height, hfib, hgreatest, le_log_of_fib_le hgreatest.1, fun key => ?_⟩
    obtain ⟨ret, calls, hr, hcalls⟩ := hd.lookupCalls key
    exact ⟨ret, calls, hr, hcalls, hcalls.trans (hgreatest.2 hfib)⟩
  · exact absurd hs hok

theorem avlTree_height_bound_fiveEntry :
    ∃ (t : Tree Int) (n height bound : Nat), fiveEntry.root = t.ptr ∧
      Holds fiveEntry.mem t ∧ t.addrs.Nodup ∧ t.addrs.length = n ∧ t.toList = [1, 3, 4, 6, 7] ∧
      avlNodeGetHeight fiveEntry.mem fiveEntry.root = some (height : Int) ∧
      Nat.fib (height + 2) ≤ n + 1 ∧
      IsGreatest {h | Nat.fib (h + 2) ≤ n + 1} bound ∧ bound ≤ 2 * Nat.log 2 (n + 1) + 1 ∧
      ∀ key, ∃ ret calls, avlTreeLookupCalls intComparison fiveEntry (some key) =
        some (ret, calls) ∧ calls ≤ height ∧ calls ≤ bound :=
  avlTree_height_bound intComparison fiveEntry [1, 3, 4, 6, 7] (fiveEntry_run _ not_sole_six)

end DataStructures.Avl
