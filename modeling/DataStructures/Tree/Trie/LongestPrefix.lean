import DataStructures.Tree.Trie.Overrun

/-!
# The deepest branching

`trie_longest_prefix` counts in an `int` and keeps its running answer in a `uint8_t`.
`LongestPrefixRight m root w`: what it returns for `w` is -1 off the trie, 0 on a path without
branchings, and otherwise one more than the depth of the deepest branching.

`trieLongestPrefix_iff`: this is so exactly where no branching is at depth 255 or deeper.
-/

namespace DataStructures.Trie

open Lib Memory Trie.Tree
open Accesses (Path path_iff insertEach insertEach_spec good_of_create)

variable {m : Heap} {t : Tree} {w : Word} {root : Ptr} {n i : Nat}

/-- The node at depth `i` on the path of the word has a child besides the next one. -/
def BranchesAt (m : Heap) (root : Ptr) (w : Word) (i : Nat) : Prop :=
  ∃ c, w[i]? = some c ∧ ∃ j, j ≠ c ∧ Path m root (w.take i ++ [j])

/-- And no deeper one has. -/
def DeepestAt (m : Heap) (root : Ptr) (w : Word) (i : Nat) : Prop :=
  BranchesAt m root w i ∧ ∀ j > i, ¬ BranchesAt m root w j

/-- **What is returned is where the deepest branching is.** -/
def LongestPrefixRight (m : Heap) (root : Ptr) (w : Word) : Prop :=
  ∃ ret, trieLongestPrefix m root (some (str w)) = some ret ∧ (ret = -1 ↔ ¬ Path m root w) ∧
    (Path m root w → (ret = 0 ↔ ∀ i, ¬ BranchesAt m root w i) ∧
      ∀ i, DeepestAt m root w i → ret = i + 1)

theorem branchesAt_iff (h : Good m root n t) : BranchesAt m root w i ↔ Branches t w i := by
  rw [← h.ptr]
  simp only [BranchesAt, Branches, path_iff h.holds]

/-- The answer, on a path. -/
theorem Good.longestPrefix (h : Good m root n t) (hw : Path m root w) : ∃ k : Nat,
    trieLongestPrefix m root (some (str w)) = some (k : Int) ∧
      ((k = 0 ∧ ∀ i, ¬ BranchesAt m root w i) ∨ ∃ i, k = (i + 1) % 256 ∧ DeepestAt m root w i) := by
  rw [trieLongestPrefix, if_neg h.isSome]
  simp only [DeepestAt, branchesAt_iff h]
  rw [← h.ptr] at hw ⊢
  obtain ⟨k, hr, hk⟩ := trieLongestPrefixFrom_some h.holds ((path_iff h.holds).mp hw) 0 0
  refine ⟨k, hr, hk.imp id ?_⟩
  rintro ⟨i, hk, hi⟩
  rw [Nat.zero_add] at hk
  exact ⟨i, hk, hi⟩

theorem Good.longestPrefix_none (h : Good m root n t) (hw : ¬ Path m root w) :
    trieLongestPrefix m root (some (str w)) = some (-1) := by
  rw [trieLongestPrefix, if_neg h.isSome]
  rw [← h.ptr, path_iff h.holds, not_not] at hw
  rw [← h.ptr]
  exact trieLongestPrefixFrom_none h.holds h.ne_nil hw 0 0

theorem DeepestAt.unique {j : Nat} (hi : DeepestAt m root w i) (hj : DeepestAt m root w j) : i = j := by
  rcases Nat.lt_trichotomy i j with hlt | heq | hgt
  · exact absurd hj.1 (hi.2 j hlt)
  · exact heq
  · exact absurd hi.1 (hj.2 i hgt)

/-- **The byte holds the answer** if the deepest branching is above depth 255. -/
theorem Good.longestPrefixRight_iff (h : Good m root n t) : LongestPrefixRight m root w ↔
    (Path m root w → ∀ i, BranchesAt m root w i → i < 255) := by
  by_cases hw : Path m root w
  · obtain ⟨k, hr, ⟨hk, hno⟩ | ⟨i, hk, hi⟩⟩ := h.longestPrefix hw
    · refine iff_of_true ⟨k, hr, ?_, fun _ => ⟨?_, fun i hi => absurd hi.1 (hno i)⟩⟩
        (fun _ i hi => absurd hi (hno i))
      · exact iff_of_false (by omega) (fun hnot => hnot hw)
      · exact iff_of_true (by omega) hno
    · constructor
      · rintro ⟨ret, hret, -, hpath⟩ - j hj
        rw [hr, Option.some.injEq] at hret
        have hright := (hpath hw).2 i hi
        have hji : ¬ i < j := fun hlt => hi.2 j hlt hj
        omega
      · intro hshort
        have hlt := hshort hw i hi.1
        rw [Nat.mod_eq_of_lt (by omega)] at hk
        refine ⟨k, hr, iff_of_false (by omega) (fun hnot => hnot hw), fun _ => ⟨?_, fun j hj => ?_⟩⟩
        · exact iff_of_false (by omega) (fun hno => hno i hi.1)
        · rw [hj.unique hi]
          omega
  · refine iff_of_true ⟨-1, h.longestPrefix_none hw, iff_of_true rfl hw, fun hp => absurd hp hw⟩
      (fun hp => absurd hp hw)

/-- **Where `trie_longest_prefix` returns the deepest branching.**  The trie is built from a new root
by any insertions, of words of any length; then for every word the answer is right exactly where the
word is no path, or no node from depth 255 on has another child on it. -/
theorem trieLongestPrefix_iff (m₀ m₁ : Heap) (a : Nat) (words : List Word)
    (hcreate : trieNodeCreate m₀ = (some a, m₁)) :
    ∃ m, insertEach m₁ (some a) words = some m ∧ ∀ w : Word,
      LongestPrefixRight m (some a) w ↔
        (Path m (some a) w → ∀ i, BranchesAt m (some a) w i → i < 255) := by
  obtain ⟨m, n, t, hr, h, -⟩ := insertEach_spec words (good_of_create hcreate)
  exact ⟨m, hr, fun w => h.longestPrefixRight_iff⟩

theorem trieLongestPrefix_iff_two :
    ∃ m, insertEach (trieNodeCreate (Memory.empty Outcomes.allOk)).2 (some 0) [[0, 1], [0]] = some m ∧
      ∀ w : Word, LongestPrefixRight m (some 0) w ↔
        (Path m (some 0) w → ∀ i, BranchesAt m (some 0) w i → i < 255) :=
  trieLongestPrefix_iff (Memory.empty Outcomes.allOk) _ 0 [[0, 1], [0]] rfl

/-- **A branching at depth 255.**  One is added to the byte 255, and the answer is that of a path
without branchings. -/
theorem trieLongestPrefix_truncated : ∃ m,
    insertEach (trieNodeCreate (Memory.empty Outcomes.allOk)).2 (some 0)
      [List.replicate 256 0, List.replicate 255 0 ++ [1]] = some m ∧
    Path m (some 0) (List.replicate 256 0) ∧ DeepestAt m (some 0) (List.replicate 256 0) 255 ∧
    trieLongestPrefix m (some 0) (some (str (List.replicate 256 0))) = some 0 ∧
    ¬ LongestPrefixRight m (some 0) (List.replicate 256 0) := by
  have hcreate : trieNodeCreate (Memory.empty Outcomes.allOk) =
      (some 0, (trieNodeCreate (Memory.empty Outcomes.allOk)).2) := rfl
  obtain ⟨m, n, t, hr, h, hstores⟩ :=
    insertEach_spec [List.replicate 256 0, List.replicate 255 0 ++ [1]] (good_of_create hcreate)
  have hS := hstores rfl [] (stores_fresh 0)
  have hpath : ∀ w ∈ [List.replicate 256 0, List.replicate 255 0 ++ [1]], Path m (some 0) w := by
    intro w hw
    rw [← h.ptr, path_iff h.holds, hS.sub]
    exact Or.inr ⟨w, hw, List.prefix_refl w⟩
  have hw := hpath _ List.mem_cons_self
  have hdeepest : DeepestAt m (some 0) (List.replicate 256 0) 255 := by
    refine ⟨⟨0, ?_, 1, by decide, ?_⟩, fun j hj hb => ?_⟩
    · rw [List.getElem?_replicate, if_pos (by omega)]
    · rw [List.take_replicate]
      exact hpath _ (List.mem_cons_of_mem _ List.mem_cons_self)
    · have hlt := ((branchesAt_iff h).mp hb).lt_length
      rw [List.length_replicate] at hlt
      omega
  refine ⟨m, hr, hw, hdeepest, ?_, ?_⟩
  · obtain ⟨k, hk, ⟨-, hno⟩ | ⟨i, hi, hd⟩⟩ := h.longestPrefix hw
    · exact absurd hdeepest.1 (hno 255)
    · rw [hd.unique hdeepest] at hi
      rw [hk, hi]
      rfl
  · intro hright
    have hlt := h.longestPrefixRight_iff.mp hright hw 255 hdeepest.1
    exact absurd hlt (by decide)

end DataStructures.Trie
