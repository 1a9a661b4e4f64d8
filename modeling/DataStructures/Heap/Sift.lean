import DataStructures.Heap.Model
import DataStructures.Lib.BinaryHeap
import Mathlib.Algebra.Group.Int.Defs
import Mathlib.Algebra.Group.Nat.Defs

/-!
# The two loops of a heap

`Follows wrong cmp r`: the test on the compare callback finds the pairs that do not stand in the
total preorder `r`.  The array begins with the entries `l`, and what comes behind them is not
read.

`heapifyUp_spec`, `heapifyDown_spec`: from a list with one place out of order, each loop ends
with the same entries in heap order.
-/

namespace DataStructures.Heap

open Lib BinaryHeap

variable {D : Type} {wrong : Int → Bool} {cmp : D → D → Int} {r : D → D → Prop} {l : List D}
  {rest : Buffer D} {i j k rounds : Nat}

/-- The test finds the pairs out of order. -/
structure Follows (wrong : Int → Bool) (cmp : D → D → Int) (r : D → D → Prop) : Prop where
  preorder : TotalPreorder r
  wrong_iff : ∀ x y, wrong (cmp x y) = true ↔ ¬ r x y

/-! ### The array -/

/-- The array that begins with the entries. -/
def entries (l : List D) (rest : Buffer D) : Buffer D := l.map some ++ rest

theorem length_entries : (entries l rest).length = l.length + rest.length := by
  rw [entries, List.length_append, List.length_map]

theorem getAt_entries (hi : i < l.length) : getAt (entries l rest) i = some l[i] := by
  rw [getAt, entries, List.getElem?_append_left (by rwa [List.length_map]), List.getElem?_map,
    List.getElem?_eq_getElem hi]
  rfl

theorem putAt_entries (hi : i < l.length) (x : D) :
    putAt (entries l rest) i x = some (entries (l.set i x) rest) := by
  rw [putAt, length_entries, if_pos (by omega), entries, entries,
    List.set_append_left _ _ (by rwa [List.length_map]), List.map_set]

theorem entries_concat (l : List D) (x : D) (rest : Buffer D) :
    entries (l ++ [x]) rest = entries l (some x :: rest) := by
  rw [entries, entries, List.map_append, List.append_assoc]
  rfl

theorem getAt_entries_length (l : List D) (x : D) (rest : Buffer D) :
    getAt (entries l (some x :: rest)) l.length = some x := by
  rw [← entries_concat, getAt_entries (by rw [List.length_append]; exact Nat.lt_succ_self _),
    List.getElem_concat_length rfl]

theorem putAt_entries_length (l : List D) (y : Option D) (x : D) (rest : Buffer D) :
    putAt (entries l (y :: rest)) l.length x = some (entries (l ++ [x]) rest) := by
  rw [entries_concat, putAt, length_entries, if_pos (by rw [List.length_cons]; omega), entries, entries,
    List.set_append_right _ _ (Nat.le_of_eq (List.length_map ..)), List.length_map, Nat.sub_self]
  rfl

theorem swap_entries (hi : i < l.length) (hj : j < l.length) :
    swap (entries l rest) i j = some (entries (BinaryHeap.swap l i j hi hj) rest) := by
  rw [swap, getAt_entries hi, getAt_entries hj, Option.bind_eq_bind, Option.bind_some,
    Option.bind_eq_bind, Option.bind_some, putAt_entries hi, Option.bind_some,
    putAt_entries (by rwa [List.length_set])]
  rfl

/-- What the test says of two entries. -/
theorem Follows.at_of_wrong (hf : Follows wrong cmp r) (hi : i < l.length) (hj : j < l.length)
    (hw : wrong (cmp l[i] l[j]) = true) : At r l j i := by
  intro y hy x hx
  rw [List.getElem?_eq_getElem hi] at hx
  rw [List.getElem?_eq_getElem hj] at hy
  obtain rfl := Option.some.inj hx
  obtain rfl := Option.some.inj hy
  exact (hf.preorder.total _ _).resolve_left ((hf.wrong_iff _ _).mp hw)

theorem Follows.at_of_not_wrong (hf : Follows wrong cmp r) (hi : i < l.length) (hj : j < l.length)
    (hw : ¬ wrong (cmp l[i] l[j]) = true) : At r l i j := by
  intro x hx y hy
  rw [List.getElem?_eq_getElem hi] at hx
  rw [List.getElem?_eq_getElem hj] at hy
  obtain rfl := Option.some.inj hx
  obtain rfl := Option.some.inj hy
  exact not_not.mp (mt (hf.wrong_iff _ _).mpr hw)

/-! ### The loops -/

/-- **`__heapify_up`** brings the entry at `k` to its place. -/
theorem heapifyUp_spec (rest : Buffer D) (hf : Follows wrong cmp r) (h : UpHole r l k) (hk : k < l.length)
    (hr : k < rounds) : ∃ l', heapifyUp wrong cmp rounds (entries l rest) k = some (entries l' rest) ∧
      l'.Perm l ∧ Ordered r l' := by
  induction rounds generalizing l k with
  | zero => exact absurd hr (Nat.not_lt_zero k)
  | succ rounds ih =>
    rw [heapifyUp]
    by_cases h0 : k = 0
    · rw [if_pos h0]
      exact ⟨l, rfl, .refl l, h.ordered (fun hpos => absurd h0 (Nat.ne_of_gt hpos))⟩
    · have hpos := Nat.pos_of_ne_zero h0
      have hlt : parent k < k := parent_lt hpos
      have hp : parent k < l.length := Nat.lt_trans hlt hk
      have hpidx : parentIdx k = parent k := rfl
      simp only [if_neg h0, hpidx, getAt_entries hp, getAt_entries hk]
      by_cases hw : wrong (cmp l[parent k] l[k]) = true
      · have hswap := h.swap hf.preorder hk hpos (hf.at_of_wrong hp hk hw) hp
        obtain ⟨l', hrun, hperm, ho⟩ := ih hswap (by rwa [length_swap]) (by omega)
        refine ⟨l', ?_, hperm.trans (swap_perm hp hk), ho⟩
        simp only [Option.bind_eq_bind, Option.bind_some, if_pos hw, swap_entries hp hk]
        exact hrun
      · refine ⟨l, ?_, .refl l, h.ordered (fun _ => hf.at_of_not_wrong hp hk hw)⟩
        simp only [Option.bind_eq_bind, Option.bind_some, if_neg hw]
        rfl

/-- The better of an entry and a child. -/
theorem pick_spec (rest : Buffer D) (hf : Follows wrong cmp r) (hi : i < l.length) (j : Nat) :
    ∃ c, pick wrong cmp (entries l rest) l.length i j = some c ∧ c < l.length ∧
      (c = i ∨ c = j) ∧ (c = i → At r l i j) ∧ At r l c i ∧ At r l c j := by
  have hself : At r l i i := by
    intro x hx y hy
    obtain rfl := Option.some.inj (hx.symm.trans hy)
    exact hf.preorder.refl x
  rw [pick]
  by_cases hj : j < l.length
  · rw [if_pos hj, getAt_entries hi, getAt_entries hj]
    by_cases hw : wrong (cmp l[i] l[j]) = true
    · refine ⟨j, congrArg some (if_pos hw), hj, Or.inr rfl, ?_, hf.at_of_wrong hi hj hw, ?_⟩
      · rintro rfl
        exact hself
      · intro x hx y hy
        obtain rfl := Option.some.inj (hx.symm.trans hy)
        exact hf.preorder.refl x
    · have hat := hf.at_of_not_wrong hi hj hw
      exact ⟨i, congrArg some (if_neg hw), hi, Or.inl rfl, fun _ => hat, hself, hat⟩
  · have hat : At r l i j := by
      intro x _ y hy
      rw [List.getElem?_eq_none (by omega)] at hy
      cases hy
    rw [if_neg hj]
    exact ⟨i, rfl, hi, Or.inl rfl, fun _ => hat, hself, hat⟩

/-- **`__heapify_down`** brings the entry at `k` to its place, in a heap of less than 2^30
entries. -/
theorem heapifyDown_spec (rest : Buffer D) (hf : Follows wrong cmp r) (h : DownHole r l k)
    (hk : k < l.length ∨ k = 0 ∧ l = []) (hsize : l.length < 2 ^ 30) (hr : l.length < k + rounds) :
    ∃ l', heapifyDown wrong cmp l.length rounds (entries l rest) k = some (entries l' rest) ∧
      l'.Perm l ∧ Ordered r l' := by
  induction rounds generalizing l k with
  | zero => omega
  | succ rounds ih =>
    have hbound : k < 2 ^ 30 := by omega
    have hl : leftIdx k = some (2 * k + 1) := toIdx_of (by omega)
    have hright : rightIdx k = some (2 * k + 2) := toIdx_of (by omega)
    rw [heapifyDown, hl, hright, Option.bind_eq_bind, Option.bind_some, Option.bind_eq_bind,
      Option.bind_some]
    by_cases hleaf : l.length ≤ 2 * k + 1
    · -- no child is there
      have hcond : (decide (2 * k + 1 ≥ l.length) && decide (2 * k + 2 ≥ l.length)) = true := by
        rw [Bool.and_eq_true, decide_eq_true_eq, decide_eq_true_eq]
        omega
      rw [if_pos hcond]
      refine ⟨l, rfl, .refl l, h.ordered (fun i hi hp x _ y hy => ?_)⟩
      rw [List.getElem?_eq_none (by rw [parent_eq_iff hi] at hp; omega)] at hy
      cases hy
    · have hcond : ¬ (decide (2 * k + 1 ≥ l.length) && decide (2 * k + 2 ≥ l.length)) = true := by
        rw [Bool.and_eq_true, decide_eq_true_eq, decide_eq_true_eq]
        omega
      have hk' : k < l.length := by omega
      obtain ⟨c₁, hp₁, hc₁, hor₁, hat₁, hci₁, hcj₁⟩ :=
        pick_spec rest hf hk' (2 * k + 1)
      obtain ⟨c, hp₂, hc, hor, hat, hci, hcj⟩ := pick_spec rest hf hc₁ (2 * k + 2)
      rw [if_neg hcond, hp₁, Option.bind_some, hp₂, Option.bind_some]
      by_cases hck : c = k
      · -- both children may stand below it
        have hc₁k : c₁ = k := by
          rcases hor with rfl | rfl
          · exact hck
          · omega
        rw [if_pos hck]
        refine ⟨l, rfl, .refl l, h.ordered (fun i hi hp => ?_)⟩
        rcases (parent_eq_iff hi).mp hp with rfl | rfl
        · exact hat₁ hc₁k
        · rw [hc₁k] at hat
          exact hat (hck.trans hc₁k.symm |>.trans hc₁k)
      · have hck' : c = 2 * k + 1 ∨ c = 2 * k + 2 := by omega
        have hpc : parent c = k := (parent_eq_iff (by omega)).mpr hck'
        have hwrong : At r l c k := hci.trans hf.preorder hci₁ hc₁
        have hbest : ∀ i, 0 < i → parent i = k → i ≠ c → At r l c i := by
          intro i hi hp _
          rcases (parent_eq_iff hi).mp hp with rfl | rfl
          · exact hci.trans hf.preorder hcj₁ hc₁
          · exact hcj
        have hswap := h.swap hk' hc (by omega) hpc hwrong hbest
        rw [if_neg hck, swap_entries hk' hc, Option.bind_some]
        obtain ⟨l', hrun, hperm, ho⟩ := ih hswap (Or.inl (by rwa [length_swap]))
          (by rwa [length_swap]) (by rw [length_swap]; omega)
        rw [length_swap] at hrun
        exact ⟨l', hrun, hperm.trans (swap_perm hk' hc), ho⟩

end DataStructures.Heap
