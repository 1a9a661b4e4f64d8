import Mathlib.Data.List.Basic
import Mathlib.Tactic.Common

/-!
# Comparison callbacks

A `Comparison` is a three-way comparison with integer results, as C callbacks
return them: negative, zero or positive.  It is total and transitive; two values
may compare equal without being equal.

`Sorted c l`: the list is strictly increasing.  `insertSeq` puts a value at its
place in such a list and `eraseSeq` takes the equal one out; what they do to
`l ++ d :: r`, where `d` sits at the root of a search tree, is
`insertSeq_lt`, `insertSeq_gt`, `eraseSeq_lt` and so on.
-/

namespace DataStructures.Lib

/-- A comparison function that orders the values totally. -/
structure Comparison (K : Type) where
  cmp : K → K → Int
  swap : ∀ a b, cmp a b < 0 ↔ 0 < cmp b a
  trans : ∀ a b c, cmp a b ≤ 0 → cmp b c ≤ 0 → cmp a c ≤ 0

namespace Comparison

variable {K : Type} (c : Comparison K) {a b d : K}

theorem self (a : K) : c.cmp a a = 0 := by
  have h := c.swap a a
  omega

theorem eq_swap : c.cmp a b = 0 ↔ c.cmp b a = 0 := by
  have h1 := c.swap a b
  have h2 := c.swap b a
  omega

theorem lt_of_lt_of_le (h1 : c.cmp a b < 0) (h2 : c.cmp b d ≤ 0) : c.cmp a d < 0 := by
  by_contra h
  have h3 := c.swap d a
  have h4 := c.swap b a
  have h5 := c.swap a b
  have h6 := c.swap a d
  have h7 := c.trans b d a h2 (by omega)
  omega

theorem lt_trans (h1 : c.cmp a b < 0) (h2 : c.cmp b d < 0) : c.cmp a d < 0 :=
  c.lt_of_lt_of_le h1 (by omega)

theorem eq_trans (h1 : c.cmp a b = 0) (h2 : c.cmp b d = 0) : c.cmp a d = 0 := by
  have h3 := c.trans a b d (by omega) (by omega)
  have h4 := c.trans d b a (by have := c.eq_swap.mp h2; omega) (by have := c.eq_swap.mp h1; omega)
  have h5 := c.swap a d
  have h6 := c.swap d a
  omega

end Comparison

/-! ### Sorted lists -/

variable {K : Type} (c : Comparison K)

/-- The list is strictly increasing. -/
def Sorted (l : List K) : Prop := l.Pairwise (fun a b => c.cmp a b < 0)

/-- `k`, put at its place, unless an equal value is there. -/
def insertSeq (k : K) : List K → List K
  | [] => [k]
  | x :: l =>
      if c.cmp k x < 0 then k :: x :: l
      else if 0 < c.cmp k x then x :: insertSeq k l
      else x :: l

/-- The value equal to `k` taken out. -/
def eraseSeq (k : K) : List K → List K
  | [] => []
  | x :: l => if c.cmp k x = 0 then l else x :: eraseSeq k l

/-- A value equal to `k` is in the list. -/
def Occurs (k : K) (l : List K) : Prop := ∃ x ∈ l, c.cmp k x = 0

/-- A value equal to `k` is in the list, and no other. -/
def Sole (k : K) (l : List K) : Prop := ∃ x, l = [x] ∧ c.cmp k x = 0

variable {c} {k d : K} {l r : List K}

theorem sorted_middle : Sorted c (l ++ d :: r) ↔
    Sorted c l ∧ Sorted c r ∧ (∀ x ∈ l, c.cmp x d < 0) ∧ ∀ y ∈ r, c.cmp d y < 0 := by
  rw [Sorted, List.pairwise_append, List.pairwise_cons]
  simp only [List.mem_cons, forall_eq_or_imp]
  refine ⟨?_, ?_⟩
  · intro hm
    obtain ⟨hl, ⟨hd, hr⟩, h⟩ := hm
    exact ⟨hl, hr, fun x hx => (h x hx).1, hd⟩
  · intro hm
    obtain ⟨hl, hr, hx, hy⟩ := hm
    exact ⟨hl, ⟨hy, hr⟩, fun x hx' => ⟨hx x hx', fun y hy' => c.lt_trans (hx x hx') (hy y hy')⟩⟩

theorem insertSeq_lt (h : c.cmp k d < 0) : insertSeq c k (l ++ d :: r) = insertSeq c k l ++ d :: r := by
  induction l with
  | nil => simp [insertSeq, h]
  | cons x l ih =>
    rw [List.cons_append, insertSeq, insertSeq]
    split
    · rfl
    · split
      · rw [ih, List.cons_append]
      · rfl

theorem insertSeq_gt (hs : ∀ x ∈ l, c.cmp x d < 0) (h : 0 < c.cmp k d) :
    insertSeq c k (l ++ d :: r) = l ++ d :: insertSeq c k r := by
  induction l with
  | nil => rw [List.nil_append, insertSeq, if_neg (by omega), if_pos h]; rfl
  | cons x l ih =>
    have hx : 0 < c.cmp k x :=
      (c.swap x k).mp (c.lt_trans (hs x (List.mem_cons_self ..)) ((c.swap d k).mpr h))
    rw [List.cons_append, insertSeq, if_neg (by omega), if_pos hx,
      ih (fun y hy => hs y (List.mem_cons_of_mem _ hy)), List.cons_append]

theorem insertSeq_eq (hs : ∀ x ∈ l, c.cmp x d < 0) (h : c.cmp k d = 0) :
    insertSeq c k (l ++ d :: r) = l ++ d :: r := by
  induction l with
  | nil => rw [List.nil_append, insertSeq, if_neg (by omega), if_neg (by omega)]
  | cons x l ih =>
    have hx : 0 < c.cmp k x := (c.swap x k).mp
      (c.lt_of_lt_of_le (hs x (List.mem_cons_self ..)) (Int.le_of_eq (c.eq_swap.mp h)))
    rw [List.cons_append, insertSeq, if_neg (by omega), if_pos hx,
      ih (fun y hy => hs y (List.mem_cons_of_mem _ hy))]

/-- A value below a list is not in it. -/
theorem eraseSeq_below (hs : ∀ y ∈ r, c.cmp k y < 0) : eraseSeq c k r = r := by
  induction r with
  | nil => rfl
  | cons y r ih =>
    have hy := hs y (List.mem_cons_self ..)
    rw [eraseSeq, if_neg (by omega), ih (fun z hz => hs z (List.mem_cons_of_mem _ hz))]

theorem eraseSeq_lt (hs : ∀ y ∈ r, c.cmp d y < 0) (h : c.cmp k d < 0) :
    eraseSeq c k (l ++ d :: r) = eraseSeq c k l ++ d :: r := by
  induction l with
  | nil =>
    apply eraseSeq_below
    intro y hy
    rcases List.mem_cons.mp hy with rfl | hy
    · exact h
    · exact c.lt_trans h (hs y hy)
  | cons x l ih =>
    rw [List.cons_append, eraseSeq, eraseSeq]
    split
    · rfl
    · rw [ih, List.cons_append]

theorem eraseSeq_gt (hs : ∀ x ∈ l, c.cmp x d < 0) (h : 0 < c.cmp k d) :
    eraseSeq c k (l ++ d :: r) = l ++ d :: eraseSeq c k r := by
  induction l with
  | nil => rw [List.nil_append, eraseSeq, if_neg (by omega)]; rfl
  | cons x l ih =>
    have hx : 0 < c.cmp k x :=
      (c.swap x k).mp (c.lt_trans (hs x (List.mem_cons_self ..)) ((c.swap d k).mpr h))
    rw [List.cons_append, eraseSeq, if_neg (by omega),
      ih (fun y hy => hs y (List.mem_cons_of_mem _ hy)), List.cons_append]

theorem eraseSeq_eq (hs : ∀ x ∈ l, c.cmp x d < 0) (h : c.cmp k d = 0) :
    eraseSeq c k (l ++ d :: r) = l ++ r := by
  induction l with
  | nil => rw [List.nil_append, eraseSeq, if_pos h]; rfl
  | cons x l ih =>
    have hx : 0 < c.cmp k x := (c.swap x k).mp
      (c.lt_of_lt_of_le (hs x (List.mem_cons_self ..)) (Int.le_of_eq (c.eq_swap.mp h)))
    rw [List.cons_append, eraseSeq, if_neg (by omega),
      ih (fun y hy => hs y (List.mem_cons_of_mem _ hy)), List.cons_append]

/-- A value that is there is not put in again. -/
theorem insertSeq_of_occurs (hs : Sorted c l) (h : Occurs c k l) : insertSeq c k l = l := by
  obtain ⟨d, hd, hkd⟩ := h
  obtain ⟨u, v, rfl⟩ := List.append_of_mem hd
  exact insertSeq_eq (sorted_middle.mp hs).2.2.1 hkd

/-- A value that is not there comes between two parts of the list. -/
theorem insertSeq_of_not_occurs (h : ¬ Occurs c k l) :
    ∃ u v, l = u ++ v ∧ insertSeq c k l = u ++ k :: v := by
  induction l with
  | nil => exact ⟨[], [], rfl, rfl⟩
  | cons x l ih =>
    have hx : c.cmp k x ≠ 0 := fun he => h ⟨x, List.mem_cons_self, he⟩
    rw [insertSeq]
    split
    · exact ⟨[], x :: l, rfl, rfl⟩
    · obtain ⟨u, v, hl, hi⟩ := ih (fun ⟨y, hy, hky⟩ => h ⟨y, List.mem_cons_of_mem x hy, hky⟩)
      refine ⟨x :: u, v, congrArg (x :: ·) hl, ?_⟩
      rw [if_pos (by omega), hi]
      rfl

/-- Without a value equal to `k` there is nothing to take out. -/
theorem eraseSeq_of_not_occurs (h : ¬ Occurs c k l) : eraseSeq c k l = l := by
  induction l with
  | nil => rfl
  | cons x l ih =>
    rw [eraseSeq, if_neg (fun he => h ⟨x, List.mem_cons_self, he⟩),
      ih (fun ⟨y, hy, hky⟩ => h ⟨y, List.mem_cons_of_mem x hy, hky⟩)]

/-! ### What the operations do to the elements -/

theorem occurs_middle : Occurs c k (l ++ d :: r) ↔ Occurs c k l ∨ c.cmp k d = 0 ∨ Occurs c k r := by
  simp [Occurs, or_and_right, exists_or]

theorem mem_insertSeq {x : K} (h : x ∈ insertSeq c k l) : x = k ∨ x ∈ l := by
  induction l with
  | nil => exact Or.inl (List.mem_singleton.mp h)
  | cons y l ih =>
    rw [insertSeq] at h
    split at h
    · exact List.mem_cons.mp h
    · split at h
      · rcases List.mem_cons.mp h with rfl | h
        · exact Or.inr (List.mem_cons_self ..)
        · exact (ih h).imp_right (List.mem_cons_of_mem _)
      · exact Or.inr h

theorem eraseSeq_sublist : (eraseSeq c k l).Sublist l := by
  induction l with
  | nil => exact List.Sublist.refl _
  | cons y l ih =>
    rw [eraseSeq]
    split
    · exact List.sublist_cons_self y l
    · exact ih.cons_cons y

/-- **A value put at its place keeps the list sorted.** -/
theorem Sorted.insertSeq (hs : Sorted c l) : Sorted c (insertSeq c k l) := by
  induction l with
  | nil => exact List.pairwise_singleton _ _
  | cons y l ih =>
    obtain ⟨hy, hl⟩ := List.pairwise_cons.mp hs
    rw [Lib.insertSeq]
    split
    next h =>
      refine List.pairwise_cons.mpr ⟨fun x hx => ?_, hs⟩
      rcases List.mem_cons.mp hx with rfl | hx
      · exact h
      · exact c.lt_trans h (hy x hx)
    next =>
      split
      next h =>
        refine List.pairwise_cons.mpr ⟨fun x hx => ?_, ih hl⟩
        rcases mem_insertSeq hx with rfl | hx
        · exact (c.swap y x).mpr h
        · exact hy x hx
      next => exact hs

theorem Sorted.eraseSeq (hs : Sorted c l) : Sorted c (eraseSeq c k l) := hs.sublist eraseSeq_sublist

/-- **A list is emptied by taking out its only value.** -/
theorem eraseSeq_eq_nil : eraseSeq c k l = [] ↔ l = [] ∨ Sole c k l := by
  cases l with
  | nil => simp [eraseSeq]
  | cons y l =>
    rw [eraseSeq]
    split
    next h =>
      refine ⟨?_, ?_⟩
      · intro hm
        subst hm
        exact Or.inr ⟨y, rfl, h⟩
      · intro hm
        rcases hm with h' | ⟨x, h', _⟩
        · exact absurd h' (List.cons_ne_nil _ _)
        · exact (List.cons.inj h').2
    next h =>
      refine ⟨fun h' => ?_, fun hp => ?_⟩
      · exact absurd h' (List.cons_ne_nil _ _)
      · rcases hp with h' | ⟨x, h', hx⟩
        · exact absurd h' (List.cons_ne_nil _ _)
        · exact absurd ((List.cons.inj h').1 ▸ hx) h

theorem Sole.occurs (h : Sole c k l) : Occurs c k l := by
  obtain ⟨x, rfl, hx⟩ := h
  exact ⟨x, List.mem_singleton_self x, hx⟩

end DataStructures.Lib
