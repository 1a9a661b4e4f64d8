import DataStructures.Tree.Trie.Model
import Mathlib.Data.Finset.Card
import Mathlib.Data.Finset.Range

/-!
# Tries in memory

`Word` is a word over the letters, and `str` its bytes.  `Tree` is what a pointer to a
trie node stands for: each node with its address, its mark and its 26 subtrees, and
`Holds m t` says that the memory holds the nodes of `t`.  `t.sub w` is the subtree the
path `w` leads to, and `t.leafAt w` whether a node is there and marked.

`trieSearch_eq`: searching reads the mark.  `trieLongestPrefix_eq`: the longest prefix
is the deepest branching on a path.
-/

namespace DataStructures.Trie

open Lib Memory

/-! ### Letters -/

/-- A word over the letters. -/
abbrev Word := List (Fin childrenNo)

/-- Its bytes. -/
def str (w : Word) : Str := w.map letter

@[simp] theorem str_nil : str [] = [] := rfl
@[simp] theorem str_cons (c : Fin childrenNo) (w : Word) : str (c :: w) = letter c :: str w := rfl
@[simp] theorem length_str (w : Word) : (str w).length = w.length := List.length_map _

theorem str_take (w : Word) (n : Nat) : str (w.take n) = (str w).take n := List.map_take

@[simp] theorem childIdx_letter (i : Fin childrenNo) : childIdx (letter i) = some i := by
  revert i
  decide

theorem letter_ne_zero (i : Fin childrenNo) : letter i ≠ 0 := by
  revert i
  decide

theorem letter_range (i : Fin childrenNo) : 97 ≤ (letter i).toNat ∧ (letter i).toNat ≤ 122 := by
  revert i
  decide

/-! ### Trees -/

/-- A trie, with the addresses of its nodes. -/
inductive Tree
  | nil
  | node (addr : Nat) (leaf : Bool) (kids : Fin childrenNo → Tree)

namespace Tree

/-- The pointer to the root. -/
def ptr : Tree → Ptr
  | nil => none
  | node a _ _ => some a

/-- The node at address `a` is in the tree. -/
def Has (a : Nat) : Tree → Prop
  | nil => False
  | node b _ kids => a = b ∨ ∃ i, (kids i).Has a

/-- No two nodes have the same address. -/
def Distinct : Tree → Prop
  | nil => True
  | node a _ kids => (∀ i, (kids i).Distinct ∧ ¬ (kids i).Has a) ∧
      ∀ i j, i ≠ j → ∀ b, (kids i).Has b → ¬ (kids j).Has b

/-- No path has more than `n` nodes. -/
def Deep : Tree → Nat → Prop
  | nil, _ => True
  | node _ _ _, 0 => False
  | node _ _ kids, n + 1 => ∀ i, (kids i).Deep n

/-- The mark of the root. -/
def leaf : Tree → Bool
  | nil => false
  | node _ l _ => l

/-- The subtree a path leads to. -/
def sub : Tree → Word → Tree
  | t, [] => t
  | nil, _ :: _ => nil
  | node _ _ kids, c :: w => (kids c).sub w

/-- Whether a path leads to a marked node. -/
def leafAt (t : Tree) (w : Word) : Bool := (t.sub w).leaf

@[simp] theorem ptr_nil : nil.ptr = none := rfl
@[simp] theorem ptr_node (a : Nat) (l : Bool) (kids : Fin childrenNo → Tree) :
    (node a l kids).ptr = some a := rfl
@[simp] theorem leaf_nil : nil.leaf = false := rfl
@[simp] theorem leaf_node (a : Nat) (l : Bool) (kids : Fin childrenNo → Tree) :
    (node a l kids).leaf = l := rfl
@[simp] theorem sub_nil (t : Tree) : t.sub [] = t := by cases t <;> rfl
@[simp] theorem nil_sub (w : Word) : nil.sub w = nil := by cases w <;> rfl
@[simp] theorem node_sub_cons (a : Nat) (l : Bool) (kids : Fin childrenNo → Tree)
    (c : Fin childrenNo) (w : Word) : (node a l kids).sub (c :: w) = (kids c).sub w := rfl

theorem ptr_eq_none {t : Tree} : t.ptr = none ↔ t = nil := by
  cases t <;> simp

theorem isSome_ptr {t : Tree} : t.ptr.isSome = true ↔ t ≠ nil := by
  rw [Option.isSome_iff_ne_none, Ne, ptr_eq_none]

theorem isNone_ptr {t : Tree} : t.ptr.isNone = true ↔ t = nil := by
  rw [Option.isNone_iff_eq_none, ptr_eq_none]

theorem not_isNone_ptr {t : Tree} : ¬ t.ptr.isNone = true ↔ t ≠ nil := not_congr isNone_ptr

theorem sub_append (t : Tree) (v w : Word) : t.sub (v ++ w) = (t.sub v).sub w := by
  induction v generalizing t with
  | nil => rw [List.nil_append, sub_nil]
  | cons c v ih =>
    cases t with
    | nil => rw [nil_sub, nil_sub, nil_sub]
    | node a l kids => exact ih (kids c)

/-- A path goes through a child. -/
theorem kid_ne_nil {a : Nat} {l : Bool} {kids : Fin childrenNo → Tree} {c : Fin childrenNo}
    {w : Word} (hw : (node a l kids).sub (c :: w) ≠ nil) : kids c ≠ nil := by
  intro hc
  rw [node_sub_cons, hc, nil_sub] at hw
  exact hw rfl

/-- A path is one from its beginning on. -/
theorem sub_ne_nil_of_prefix {t : Tree} {v w : Word} (h : v <+: w) (hw : t.sub w ≠ nil) :
    t.sub v ≠ nil := by
  obtain ⟨u, rfl⟩ := h
  intro hv
  rw [sub_append, hv, nil_sub] at hw
  exact hw rfl

theorem Has.of_sub {t : Tree} {w : Word} {a : Nat} (h : (t.sub w).Has a) : t.Has a := by
  induction w generalizing t with
  | nil =>
    rw [sub_nil] at h
    exact h
  | cons c w ih =>
    cases t with
    | nil => exact h
    | node b l kids => exact Or.inr ⟨c, ih h⟩

theorem Distinct.sub {t : Tree} (h : t.Distinct) (w : Word) : (t.sub w).Distinct := by
  induction w generalizing t with
  | nil =>
    rw [sub_nil]
    exact h
  | cons c w ih =>
    cases t with
    | nil => exact h
    | node b l kids => exact ih (h.1 c).1

theorem Deep.mono {t : Tree} {n k : Nat} (h : t.Deep n) (hk : n ≤ k) : t.Deep k := by
  induction t generalizing n k with
  | nil => exact trivial
  | node a l kids ih =>
    cases n with
    | zero => exact absurd h id
    | succ n =>
      obtain ⟨k, rfl⟩ := Nat.exists_eq_succ_of_ne_zero (show k ≠ 0 by omega)
      exact fun i => ih i (h i) (by omega)

/-- A path that is there is short, and what follows it is less deep. -/
theorem Deep.sub {t : Tree} {w : Word} {n : Nat} (h : t.Deep n) (hw : t.sub w ≠ nil) :
    w.length < n ∧ (t.sub w).Deep (n - w.length) := by
  induction w generalizing t n with
  | nil =>
    rw [sub_nil] at hw ⊢
    cases t with
    | nil => exact absurd rfl hw
    | node a l kids =>
      cases n with
      | zero => exact absurd h id
      | succ n => exact ⟨Nat.succ_pos n, h⟩
  | cons c w ih =>
    cases t with
    | nil => exact absurd (nil_sub _) hw
    | node a l kids =>
      cases n with
      | zero => exact absurd h id
      | succ n =>
        obtain ⟨hlt, hd⟩ := ih (h c) hw
        rw [List.length_cons, Nat.add_sub_add_right]
        exact ⟨Nat.succ_lt_succ hlt, hd⟩

/-- A path has no more nodes than there are addresses. -/
theorem Distinct.deep {t : Tree} (h : t.Distinct) {S : Finset Nat} (hS : ∀ a, t.Has a → a ∈ S) :
    t.Deep S.card := by
  induction t generalizing S with
  | nil => exact trivial
  | node a l kids ih =>
    have ha : a ∈ S := hS a (Or.inl rfl)
    rw [← Finset.card_erase_add_one ha]
    refine fun i => ih i (h.1 i).1 (fun b hb => ?_)
    refine Finset.mem_erase.mpr ⟨?_, hS b (Or.inr ⟨i, hb⟩)⟩
    rintro rfl
    exact (h.1 i).2 hb

end Tree

open Trie.Tree

/-! ### In memory -/

/-- The memory holds the nodes of the tree. -/
def Holds (m : Heap) : Tree → Prop
  | nil => True
  | node a l kids => m.cells a = some ⟨fun i => (kids i).ptr, l⟩ ∧ ∀ i, Holds m (kids i)

variable {m m' : Heap} {t : Tree} {w : Word} {a : Nat}

theorem Holds.congr (h : Holds m t) (he : ∀ a, t.Has a → m'.cells a = m.cells a) : Holds m' t := by
  induction t with
  | nil => exact trivial
  | node a l kids ih =>
    exact ⟨(he a (Or.inl rfl)).trans h.1,
      fun i => ih i (h.2 i) (fun b hb => he b (Or.inr ⟨i, hb⟩))⟩

theorem Holds.live (h : Holds m t) (ha : t.Has a) : ∃ node, m.cells a = some node := by
  induction t with
  | nil => exact absurd ha id
  | node b l kids ih =>
    rcases ha with rfl | ⟨i, hi⟩
    · exact ⟨_, h.1⟩
    · exact ih i (h.2 i) hi

theorem Holds.lt_next (h : Holds m t) (ha : t.Has a) : a < m.next := by
  obtain ⟨node, hn⟩ := h.live ha
  exact Memory.lt_next hn

theorem Holds.sub (h : Holds m t) (w : Word) : Holds m (t.sub w) := by
  induction w generalizing t with
  | nil =>
    rw [sub_nil]
    exact h
  | cons c w ih =>
    cases t with
    | nil => exact h
    | node b l kids => exact ih (h.2 c)

theorem Holds.load {l : Bool} {kids : Fin childrenNo → Tree} (h : Holds m (node a l kids)) :
    m.load (some a) = some ⟨fun i => (kids i).ptr, l⟩ := h.1

/-- The depth the public functions recurse to is enough. -/
theorem Holds.deep (h : Holds m t) (hd : t.Distinct) : t.Deep m.next := by
  have hS : t.Deep (Finset.range m.next).card :=
    hd.deep (fun a ha => Finset.mem_range.mpr (h.lt_next ha))
  rwa [Finset.card_range] at hS

/-! ### Searching -/

theorem trieSearchFrom_eq (h : Holds m t) (ht : t ≠ nil) :
    trieSearchFrom m t.ptr (str w) = some (t.leafAt w) := by
  induction w generalizing t with
  | nil =>
    cases t with
    | nil => exact absurd rfl ht
    | node a l kids =>
      rw [str_nil, trieSearchFrom, ptr_node, h.load]
      rfl
  | cons c w ih =>
    cases t with
    | nil => exact absurd rfl ht
    | node a l kids =>
      rw [str_cons, trieSearchFrom, ptr_node, h.load, childIdx_letter, Option.bind_eq_bind,
        Option.bind_some, Option.bind_eq_bind, Option.bind_some]
      by_cases hc : kids c = nil
      · have hnone : ((kids c).ptr).isNone = true := isNone_ptr.mpr hc
        rw [if_pos hnone, leafAt, node_sub_cons, hc, nil_sub]
        rfl
      · have hsome : ¬ ((kids c).ptr).isNone = true := not_isNone_ptr.mpr hc
        rw [if_neg hsome]
        exact ih (h.2 c) hc

/-- **`trie_search` reads the mark of the node a word leads to.** -/
theorem trieSearch_eq (h : Holds m t) (ht : t ≠ nil) (w : Word) :
    trieSearch m t.ptr (some (str w)) = some (t.leafAt w) := by
  have hsome : ¬ t.ptr.isNone = true := not_isNone_ptr.mpr ht
  rw [trieSearch, if_neg hsome]
  exact trieSearchFrom_eq h ht

/-- The loop of `trie_delete` follows a path. -/
theorem trieWalk_eq (h : Holds m t) (hw : t.sub w ≠ nil) :
    trieWalk m t.ptr (str w) = some (t.sub w).ptr := by
  induction w generalizing t with
  | nil => rw [str_nil, trieWalk, sub_nil]
  | cons c w ih =>
    cases t with
    | nil => exact absurd (nil_sub _) hw
    | node a l kids =>
      have hc : kids c ≠ nil := kid_ne_nil hw
      have hsome : ¬ ((kids c).ptr).isNone = true := not_isNone_ptr.mpr hc
      rw [str_cons, trieWalk, ptr_node, h.load, childIdx_letter, Option.bind_eq_bind,
        Option.bind_some, Option.bind_eq_bind, Option.bind_some, if_neg hsome]
      exact ih (h.2 c) hw

/-! ### The longest prefix -/

/-- The node at depth `i` on the path `w` has another child than the next one. -/
def Branches (t : Tree) (w : Word) (i : Nat) : Prop :=
  ∃ c, w[i]? = some c ∧ ∃ j, j ≠ c ∧ t.sub (w.take i ++ [j]) ≠ nil

theorem Branches.lt_length {i : Nat} (h : Branches t w i) : i < w.length := by
  obtain ⟨c, hc, _⟩ := h
  exact (List.getElem?_eq_some_iff.mp hc).1

theorem branches_zero {l : Bool} {kids : Fin childrenNo → Tree} {c : Fin childrenNo} :
    Branches (node a l kids) (c :: w) 0 ↔ ∃ j, j ≠ c ∧ kids j ≠ nil := by
  refine ⟨?_, ?_⟩
  · intro h
    obtain ⟨d, hd, j, hj, hn⟩ := h
    rw [List.getElem?_cons_zero, Option.some.injEq] at hd
    subst hd
    rw [List.take_zero, List.nil_append, node_sub_cons, sub_nil] at hn
    exact ⟨j, hj, hn⟩
  · intro h
    obtain ⟨j, hj, hn⟩ := h
    refine ⟨c, rfl, j, hj, ?_⟩
    rw [List.take_zero, List.nil_append, node_sub_cons, sub_nil]
    exact hn

theorem branches_succ {l : Bool} {kids : Fin childrenNo → Tree} {c : Fin childrenNo} {i : Nat} :
    Branches (node a l kids) (c :: w) (i + 1) ↔ Branches (kids c) w i := Iff.rfl

theorem any_branching {kids : Fin childrenNo → Tree} {c : Fin childrenNo} :
    (List.finRange childrenNo).any (fun j => j != c && ((kids j).ptr).isSome) = true ↔
      ∃ j, j ≠ c ∧ kids j ≠ nil := by
  rw [List.any_eq_true]
  refine ⟨?_, ?_⟩
  · intro h
    obtain ⟨j, _, hj⟩ := h
    rw [Bool.and_eq_true, bne_iff_ne, isSome_ptr] at hj
    exact ⟨j, hj⟩
  · intro h
    obtain ⟨j, hj⟩ := h
    refine ⟨j, List.mem_finRange j, ?_⟩
    rw [Bool.and_eq_true, bne_iff_ne, isSome_ptr]
    exact hj

theorem trieLongestPrefixFrom_none (h : Holds m t) (ht : t ≠ nil) (hw : t.sub w = nil) (i : Nat)
    (pfx : UInt8) : trieLongestPrefixFrom m t.ptr (str w) i pfx = some (-1) := by
  induction w generalizing t i pfx with
  | nil => exact absurd ((sub_nil t).symm.trans hw) ht
  | cons c w ih =>
    cases t with
    | nil => exact absurd rfl ht
    | node a l kids =>
      rw [str_cons, trieLongestPrefixFrom, ptr_node, h.load, childIdx_letter, Option.bind_eq_bind,
        Option.bind_some, Option.bind_eq_bind, Option.bind_some]
      by_cases hc : kids c = nil
      · have hnone : ((kids c).ptr).isNone = true := isNone_ptr.mpr hc
        rw [if_pos hnone]
        rfl
      · have hsome : ¬ ((kids c).ptr).isNone = true := not_isNone_ptr.mpr hc
        rw [if_neg hsome]
        exact ih (h.2 c) hc hw _ _

/-- The loop from letter `i` on, over a path; the running answer is a byte. -/
theorem trieLongestPrefixFrom_some (h : Holds m t) (hw : t.sub w ≠ nil) (i : Nat) (pfx : UInt8) :
    ∃ k : Nat, trieLongestPrefixFrom m t.ptr (str w) i pfx = some (k : Int) ∧
      ((k = pfx.toNat ∧ ∀ j, ¬ Branches t w j) ∨
        ∃ j, k = (i + j + 1) % 256 ∧ Branches t w j ∧ ∀ j' > j, ¬ Branches t w j') := by
  induction w generalizing t i pfx with
  | nil =>
    refine ⟨pfx.toNat, rfl, Or.inl ⟨rfl, fun j hj => ?_⟩⟩
    obtain ⟨c, hc, _⟩ := hj
    exact absurd hc.symm (Option.some_ne_none c)
  | cons c w ih =>
    cases t with
    | nil => exact absurd (nil_sub _) hw
    | node a l kids =>
      have hc : kids c ≠ nil := kid_ne_nil hw
      have hsome : ¬ ((kids c).ptr).isNone = true := not_isNone_ptr.mpr hc
      simp only [str_cons, trieLongestPrefixFrom, ptr_node, h.load, childIdx_letter,
        Option.bind_eq_bind, Option.bind_some, if_neg hsome]
      obtain ⟨k, hr, hk⟩ := ih (h.2 c) hw (i + 1)
        (if (List.finRange childrenNo).any (fun j => j != c && ((kids j).ptr).isSome) = true
          then UInt8.ofNat (i + 1) else pfx)
      refine ⟨k, hr, ?_⟩
      rcases hk with ⟨hk, hno⟩ | ⟨j, hk, hj, hmax⟩
      · by_cases hb : (List.finRange childrenNo).any
            (fun j => j != c && ((kids j).ptr).isSome) = true
        · rw [if_pos hb, UInt8.toNat_ofNat'] at hk
          refine Or.inr ⟨0, hk, branches_zero.mpr (any_branching.mp hb), fun j' hj' => ?_⟩
          obtain ⟨j, rfl⟩ := Nat.exists_eq_succ_of_ne_zero (Nat.ne_of_gt hj')
          exact mt branches_succ.mp (hno j)
        · rw [if_neg hb] at hk
          refine Or.inl ⟨hk, fun j => ?_⟩
          cases j with
          | zero => exact fun hj => hb (any_branching.mpr (branches_zero.mp hj))
          | succ j => exact mt branches_succ.mp (hno j)
      · refine Or.inr ⟨j + 1, by rw [hk, Nat.add_right_comm i 1 j, Nat.add_assoc i j 1],
          branches_succ.mpr hj, fun j' hj' => ?_⟩
        obtain ⟨j'', rfl⟩ := Nat.exists_eq_succ_of_ne_zero (show j' ≠ 0 by omega)
        exact mt branches_succ.mp (hmax j'' (by omega))

/-- **`trie_longest_prefix` is -1 where a word is no path**, and otherwise finds the
deepest node on it with another child, on paths of fewer than 256 letters. -/
theorem trieLongestPrefix_eq (h : Holds m t) (ht : t ≠ nil) (hd : t.Deep 256) (w : Word) :
    (t.sub w = nil ∧ trieLongestPrefix m t.ptr (some (str w)) = some (-1)) ∨
    (t.sub w ≠ nil ∧ trieLongestPrefix m t.ptr (some (str w)) = some 0 ∧ ∀ j, ¬ Branches t w j) ∨
    ∃ k : Nat, t.sub w ≠ nil ∧ trieLongestPrefix m t.ptr (some (str w)) = some ((k : Int) + 1) ∧
      Branches t w k ∧ ∀ j > k, ¬ Branches t w j := by
  have hsome : ¬ t.ptr.isNone = true := not_isNone_ptr.mpr ht
  rw [trieLongestPrefix, if_neg hsome]
  by_cases hw : t.sub w = nil
  · exact Or.inl ⟨hw, trieLongestPrefixFrom_none h ht hw 0 0⟩
  · have hlt := (hd.sub hw).1
    obtain ⟨k, hr, ⟨hk, hno⟩ | ⟨j, hk, hj, hmax⟩⟩ :=
      trieLongestPrefixFrom_some h hw 0 0
    · have hk0 : k = 0 := hk
      subst hk0
      exact Or.inr (Or.inl ⟨hw, hr, hno⟩)
    · have hjw := hj.lt_length
      rw [Nat.zero_add, Nat.mod_eq_of_lt (by omega)] at hk
      subst hk
      exact Or.inr (Or.inr ⟨j, hw, hr, hj, hmax⟩)

end DataStructures.Trie
