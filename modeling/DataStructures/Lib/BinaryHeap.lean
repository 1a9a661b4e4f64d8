import Mathlib.Data.List.Basic
import Mathlib.Tactic.Common

/-!
# Binary heaps in a list

The parent of place `i` is `(i - 1) / 2`.  `Ordered r l`: every entry stands in the relation `r`
to its children.  `r` is a total preorder.

* `Ordered.head_le`: the first entry stands in the relation to all of them.
* `UpHole r l k`: the list is ordered but for the pair of `k` and its parent.  `UpHole.swap`:
  exchanging the two moves the hole to the parent.
* `DownHole r l k`: the list is ordered but for the pairs of `k` and its children.
  `DownHole.swap`: exchanging `k` and its better child moves the hole to the child.
-/

namespace DataStructures.Lib.BinaryHeap

variable {D : Type}

/-- The parent of a place. -/
def parent (i : Nat) : Nat := (i - 1) / 2

theorem parent_lt {i : Nat} (hi : 0 < i) : parent i < i := by
  unfold parent
  omega

theorem parent_eq_iff {i k : Nat} (hi : 0 < i) : parent i = k ↔ i = 2 * k + 1 ∨ i = 2 * k + 2 := by
  unfold parent
  omega

/-- The two places with their entries exchanged. -/
def swap (l : List D) (i j : Nat) (hi : i < l.length) (hj : j < l.length) : List D :=
  (l.set i l[j]).set j l[i]

variable {l : List D} {i j k : Nat}

@[simp] theorem length_swap (hi : i < l.length) (hj : j < l.length) :
    (swap l i j hi hj).length = l.length := by
  rw [swap, List.length_set, List.length_set]

theorem swap_perm (hi : i < l.length) (hj : j < l.length) : (swap l i j hi hj).Perm l :=
  List.set_set_perm hi hj

theorem getElem?_swap_left (hi : i < l.length) (hj : j < l.length) :
    (swap l i j hi hj)[i]? = l[j]? := by
  rw [swap, List.getElem?_set]
  by_cases hji : j = i
  · subst hji
    rw [if_pos rfl, if_pos (by rwa [List.length_set]), List.getElem?_eq_getElem hi]
  · rw [if_neg hji, List.getElem?_set_self hi, List.getElem?_eq_getElem hj]

theorem getElem?_swap_right (hi : i < l.length) (hj : j < l.length) :
    (swap l i j hi hj)[j]? = l[i]? := by
  rw [swap, List.getElem?_set_self (by rwa [List.length_set]), List.getElem?_eq_getElem hi]

theorem getElem?_swap_of_ne (hi : i < l.length) (hj : j < l.length) (hki : k ≠ i) (hkj : k ≠ j) :
    (swap l i j hi hj)[k]? = l[k]? := by
  rw [swap, List.getElem?_set_ne hkj.symm, List.getElem?_set_ne hki.symm]

/-! ### Order -/

variable {r : D → D → Prop}

/-- The entries at the two places, if they are there, stand in the relation. -/
def At (r : D → D → Prop) (l : List D) (i j : Nat) : Prop := ∀ x ∈ l[i]?, ∀ y ∈ l[j]?, r x y

/-- **The heap order.** -/
def Ordered (r : D → D → Prop) (l : List D) : Prop := ∀ i, 0 < i → At r l (parent i) i

/-- In order but for the pair of `k` and its parent. -/
structure UpHole (r : D → D → Prop) (l : List D) (k : Nat) : Prop where
  off : ∀ i, 0 < i → i ≠ k → At r l (parent i) i
  across : 0 < k → ∀ i, 0 < i → parent i = k → At r l (parent k) i

/-- In order but for the pairs of `k` and its children. -/
structure DownHole (r : D → D → Prop) (l : List D) (k : Nat) : Prop where
  off : ∀ i, 0 < i → parent i ≠ k → At r l (parent i) i
  across : 0 < k → ∀ i, 0 < i → parent i = k → At r l (parent k) i

/-- Any two entries stand in the relation, one way or the other. -/
structure TotalPreorder (r : D → D → Prop) : Prop where
  total : ∀ x y, r x y ∨ r y x
  trans : ∀ {x y z}, r x y → r y z → r x z

theorem TotalPreorder.refl (h : TotalPreorder r) (x : D) : r x x := (h.total x x).elim id id

theorem At.trans (hr : TotalPreorder r) (h : At r l i j) (h' : At r l j k) (hj : j < l.length) :
    At r l i k := by
  intro x hx z hz
  have hy : l[j] ∈ l[j]? := List.getElem?_eq_getElem hj
  exact hr.trans (h x hx _ hy) (h' _ hy z hz)

theorem At.of_eq {l' : List D} {i' j' : Nat} (h : At r l i j) (hi : l'[i']? = l[i]?)
    (hj : l'[j']? = l[j]?) : At r l' i' j' := by
  intro x hx y hy
  rw [hi] at hx
  rw [hj] at hy
  exact h x hx y hy

/-- **The first entry stands in the relation to all of them.** -/
theorem Ordered.head_le (hr : TotalPreorder r) (h : Ordered r l) {x : D} (hx : l[0]? = some x) :
    ∀ y ∈ l, r x y := by
  have hall : ∀ i, At r l 0 i := by
    intro i
    induction i using Nat.strongRecOn with
    | ind i ih =>
      by_cases hi : i = 0
      · subst hi
        intro y hy z hz
        obtain rfl := Option.some.inj (hy.symm.trans hz)
        exact hr.refl y
      · have hlt := parent_lt (Nat.pos_of_ne_zero hi)
        by_cases hlen : i < l.length
        · exact (ih _ hlt).trans hr (h i (Nat.pos_of_ne_zero hi)) (by omega)
        · intro y hy z hz
          rw [List.getElem?_eq_none (by omega)] at hz
          cases hz
  intro y hy
  obtain ⟨i, hi⟩ := List.mem_iff_getElem?.mp hy
  exact hall i x hx y hi

/-! ### Going up -/

theorem UpHole.ordered (h : UpHole r l k) (hk : 0 < k → At r l (parent k) k) : Ordered r l := by
  intro i hi
  by_cases hik : i = k
  · subst hik
    exact hk hi
  · exact h.off i hi hik

/-- **A new entry at the end.** -/
theorem Ordered.concat (h : Ordered r l) (x : D) : UpHole r (l ++ [x]) l.length := by
  have hold : ∀ i, i < l.length → (l ++ [x])[i]? = l[i]? := fun i hi => List.getElem?_append_left hi
  have hnone : ∀ i, l.length < i → ∀ j, At r (l ++ [x]) j i := by
    intro i hi j y _ z hz
    rw [List.getElem?_eq_none (by rw [List.length_append]; exact hi)] at hz
    cases hz
  refine ⟨fun i hi hne => ?_, fun _ i hi hp => hnone i ?_ _⟩
  · by_cases hlt : i < l.length
    · have hp := parent_lt hi
      exact (h i hi).of_eq (hold _ (by omega)) (hold i hlt)
    · exact hnone i (by omega) _
  · have hp' := parent_lt hi
    omega

/-- **One round up.** -/
theorem UpHole.swap (hr : TotalPreorder r) (h : UpHole r l k) (hk : k < l.length) (h0 : 0 < k)
    (hwrong : At r l k (parent k)) (hp : parent k < l.length) :
    UpHole r (swap l (parent k) k hp hk) (parent k) := by
  have hlt := parent_lt h0
  have hleft := getElem?_swap_left hp hk
  have hright := getElem?_swap_right hp hk
  have hne : ∀ {i}, i ≠ parent k → i ≠ k → (BinaryHeap.swap l (parent k) k hp hk)[i]? = l[i]? :=
    fun hi hj => getElem?_swap_of_ne hp hk hi hj
  refine ⟨fun i hi hip => ?_, fun hp0 i hi hpi => ?_⟩
  · have hpi := parent_lt hi
    by_cases hik : i = k
    · subst hik
      exact hwrong.of_eq hleft hright
    · have hi' := hne hip hik
      by_cases hpk : parent i = k
      · rw [hpk]
        exact (h.across h0 i hi hpk).of_eq hright hi'
      · by_cases hpp : parent i = parent k
        · rw [hpp]
          have hpar := h.off i hi hik
          rw [hpp] at hpar
          exact (hwrong.trans hr hpar hp).of_eq hleft hi'
        · exact (h.off i hi hik).of_eq (hne hpp hpk) hi'
  · have hlt' := parent_lt hp0
    have hgrand := h.off (parent k) hp0 (by omega)
    have hpp : (BinaryHeap.swap l (parent k) k hp hk)[parent (parent k)]? = l[parent (parent k)]? :=
      hne (by omega) (by omega)
    by_cases hik : i = k
    · subst hik
      exact hgrand.of_eq hpp hright
    · have hpar := h.off i hi hik
      rw [hpi] at hpar
      have hip : i ≠ parent k := by
        have := parent_lt hi
        omega
      exact (hgrand.trans hr hpar hp).of_eq hpp (hne hip hik)

/-! ### Going down -/

theorem DownHole.ordered (h : DownHole r l k) (hk : ∀ i, 0 < i → parent i = k → At r l k i) :
    Ordered r l := by
  intro i hi
  by_cases hik : parent i = k
  · rw [hik]
    exact hk i hi hik
  · exact h.off i hi hik

/-- **Another first entry, and one entry less at the end.** -/
theorem Ordered.downHole {l' : List D} (h : Ordered r l)
    (he : ∀ i, 0 < i → i < l'.length → l'[i]? = l[i]?) : DownHole r l' 0 := by
  refine ⟨fun i hi hp => ?_, fun h0 => absurd h0 (Nat.lt_irrefl 0)⟩
  have hlt := parent_lt hi
  by_cases hlen : i < l'.length
  · exact (h i hi).of_eq (he _ (Nat.pos_of_ne_zero hp) (by omega)) (he i hi hlen)
  · intro y _ z hz
    rw [List.getElem?_eq_none (by omega)] at hz
    cases hz

/-- **The first entry exchanged with the last one**: the others are in order but for the first place. -/
theorem Ordered.swap_last {x : D} {t : List D} (h : Ordered r (x :: t)) (h0 : 0 < (x :: t).length)
    (hlast : t.length < (x :: t).length) :
    ∃ s, BinaryHeap.swap (x :: t) 0 t.length h0 hlast = s ++ [x] ∧ s.Perm t ∧ DownHole r s 0 := by
  have hlen : (BinaryHeap.swap (x :: t) 0 t.length h0 hlast).length = t.length + 1 :=
    length_swap h0 hlast
  obtain ⟨s, z, hs⟩ : ∃ s z, BinaryHeap.swap (x :: t) 0 t.length h0 hlast = s ++ [z] :=
    ⟨_, _, (List.dropLast_concat_getLast (List.ne_nil_of_length_eq_add_one hlen)).symm⟩
  have hslen : s.length = t.length := by
    rw [hs, List.length_append] at hlen
    exact Nat.succ.inj hlen
  obtain rfl : z = x := by
    have hright := getElem?_swap_right h0 hlast
    rw [hs, ← hslen, List.getElem?_concat_length] at hright
    exact Option.some.inj hright
  refine ⟨s, hs, ?_, h.downHole fun i hi hlt => ?_⟩
  · have hp := swap_perm h0 hlast
    rw [hs] at hp
    exact ((List.perm_append_singleton z s).symm.trans hp).cons_inv
  · have he := getElem?_swap_of_ne h0 hlast (k := i) (by omega) (by omega)
    rwa [hs, List.getElem?_append_left hlt] at he

/-- **One round down**, to a child that stands in the relation to its sibling. -/
theorem DownHole.swap {c : Nat} (h : DownHole r l k) (hk : k < l.length) (hc : c < l.length)
    (hc0 : 0 < c) (hpc : parent c = k) (hwrong : At r l c k)
    (hbest : ∀ i, 0 < i → parent i = k → i ≠ c → At r l c i) : DownHole r (swap l k c hk hc) c := by
  have hlt := parent_lt hc0
  have hleft := getElem?_swap_left hk hc
  have hright := getElem?_swap_right hk hc
  have hne : ∀ {i}, i ≠ k → i ≠ c → (BinaryHeap.swap l k c hk hc)[i]? = l[i]? :=
    fun hi hj => getElem?_swap_of_ne hk hc hi hj
  refine ⟨fun i hi hpi => ?_, fun _ i hi hpi => ?_⟩
  · have hip := parent_lt hi
    by_cases hpk : parent i = k
    · rw [hpk]
      by_cases hic : i = c
      · subst hic
        exact hwrong.of_eq hleft hright
      · exact (hbest i hi hpk hic).of_eq hleft (hne (by omega) hic)
    · by_cases hik : i = k
      · subst hik
        exact (h.across hi c hc0 hpc).of_eq (hne hpk hpi) hleft
      · have hic : i ≠ c := by
          rintro rfl
          exact hpk hpc
        exact (h.off i hi hpk).of_eq (hne hpk hpi) (hne hik hic)
  · have hip := parent_lt hi
    have hoff := h.off i hi (by omega)
    rw [hpi] at hoff
    rw [hpc]
    exact hoff.of_eq hleft (hne (by omega) (by omega))

end DataStructures.Lib.BinaryHeap
