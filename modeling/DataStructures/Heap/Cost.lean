import DataStructures.Heap.Indices
import Mathlib.Data.Nat.Log

/-!
# The cost of a heap

What a call logs is its cost: the indices it computes and the places of the array it reads or
writes, those of the comparisons included.  On the way up from a place the index halves, and on the
way down the number of entries over the index does: `log_up`, `log_down`.

`heap_cost`: **a call costs a logarithm**, in both files, whatever the callback answers and
whatever calls have come before.
-/

namespace DataStructures.Heap.Indices

open Lib Traced

variable {D : Type} {wrong : Int → Bool} {cmp : D → D → Int}

/-! ### Depths -/

/-- **One level up.** -/
theorem log_up {k : Nat} (h0 : k ≠ 0) : Nat.log 2 (Heap.parentIdx k + 1) + 1 = Nat.log 2 (k + 1) := by
  have hk : Heap.parentIdx k + 1 = (k + 1) / 2 := by
    rw [Heap.parentIdx]
    omega
  have hpos : 0 < Nat.log 2 (k + 1) := Nat.log_pos (by omega) (by omega)
  rw [hk, Nat.log_div_base]
  omega

/-- **One level down**, to a place among the entries. -/
theorem log_down {k c size : Nat} (hc : 2 * k + 1 ≤ c) (hsize : c < size) :
    Nat.log 2 (size / (c + 1)) + 1 ≤ Nat.log 2 (size / (k + 1)) := by
  have hle : size / (c + 1) ≤ size / (k + 1) / 2 := by
    rw [Nat.div_div_eq_div_mul]
    exact Nat.div_le_div_left (by omega) (by omega)
  have htwo : 2 ≤ size / (k + 1) := (Nat.le_div_iff_mul_le (Nat.succ_pos k)).mpr (by omega)
  have hpos : 0 < Nat.log 2 (size / (k + 1)) := Nat.log_pos (by omega) htwo
  have hmono := Nat.log_mono_right (b := 2) hle
  rw [Nat.log_div_base] at hmono
  omega

/-! ### The helpers -/

theorem cost_leftIdx (x : Nat) : (leftIdx x).log.length = 1 := rfl

theorem cost_rightIdx (x : Nat) : (rightIdx x).log.length = 1 := rfl

theorem cost_parentIdx (x : Nat) : (parentIdx x).log.length = 1 := rfl

theorem cost_getAt (buf : Buffer D) (i : Nat) : (getAt buf i).log.length = 1 := rfl

theorem cost_putAt (buf : Buffer D) (i : Nat) (x : D) : (putAt buf i x).log.length = 1 := rfl

theorem cost_swap (buf : Buffer D) (i j : Nat) : (swap buf i j).log.length ≤ 4 :=
  length_log_bind_le (n := 3) (fun _ _ => length_log_bind_le (n := 2) (fun _ _ =>
    length_log_bind_le (n := 1) (fun _ _ => Nat.le_refl 1)))

theorem cost_pick (heap : Buffer D) (size tmp child : Nat) :
    (pick wrong cmp heap size tmp child).log.length ≤ 2 := by
  rw [pick]
  split
  · exact length_log_bind_le (n := 1) (fun _ _ => length_log_bind_le (n := 0) (fun _ _ =>
      Nat.le_refl 0))
  · exact Nat.zero_le 2

/-- What is picked is one of the two, the child only if it is there. -/
theorem pick_cases {heap : Buffer D} {size tmp child c : Nat}
    (h : (pick wrong cmp heap size tmp child).result = some c) :
    c = tmp ∨ c = child ∧ child < size := by
  rw [result_pick, Heap.pick] at h
  by_cases hs : child < size
  · rw [if_pos hs] at h
    obtain ⟨x, _, h⟩ := Option.bind_eq_some_iff.mp h
    obtain ⟨y, _, h⟩ := Option.bind_eq_some_iff.mp h
    rw [Option.pure_def, Option.some.injEq] at h
    rw [← h]
    split
    · exact Or.inr ⟨rfl, hs⟩
    · exact Or.inl rfl
  · rw [if_neg hs, Option.some.injEq] at h
    exact Or.inl h.symm

/-! ### The loops -/

/-- **The cost of `__heapify_up`.** -/
theorem cost_heapifyUp (rounds : Nat) (heap : Buffer D) (k : Nat) :
    (heapifyUp wrong cmp rounds heap k).log.length ≤ 7 * Nat.log 2 (k + 1) + 1 := by
  induction rounds generalizing heap k with
  | zero => exact Nat.zero_le _
  | succ rounds ih =>
    rw [heapifyUp]
    refine (length_log_bind_le (n := 7 * Nat.log 2 (k + 1)) (fun p hp => ?_)).trans
      (by rw [cost_parentIdx]; omega)
    rw [result_parentIdx, Option.some.injEq] at hp
    subst hp
    split
    · exact Nat.zero_le _
    · rename_i h0
      have hup := log_up h0
      refine (length_log_bind_le (n := 7 * Nat.log 2 (k + 1) - 1) (fun p _ => ?_)).trans
        (by rw [cost_getAt]; omega)
      refine (length_log_bind_le (n := 7 * Nat.log 2 (k + 1) - 2) (fun x _ => ?_)).trans
        (by rw [cost_getAt]; omega)
      split
      · refine (length_log_bind_le (fun buf _ => ih buf (Heap.parentIdx k))).trans ?_
        have hswap := cost_swap heap (Heap.parentIdx k) k
        omega
      · exact Nat.zero_le _

/-- **The cost of `__heapify_down`.** -/
theorem cost_heapifyDown (size rounds : Nat) (heap : Buffer D) (k : Nat) :
    (heapifyDown wrong cmp size rounds heap k).log.length ≤ 10 * Nat.log 2 (size / (k + 1)) + 2 := by
  induction rounds generalizing heap k with
  | zero => exact Nat.zero_le _
  | succ rounds ih =>
    rw [heapifyDown]
    refine (length_log_bind_le (n := 10 * Nat.log 2 (size / (k + 1)) + 1) (fun l hl => ?_)).trans
      (by rw [cost_leftIdx]; omega)
    refine (length_log_bind_le (n := 10 * Nat.log 2 (size / (k + 1))) (fun r hr => ?_)).trans
      (by rw [cost_rightIdx]; omega)
    obtain rfl := eq_of_toIdx hl
    obtain rfl := eq_of_toIdx hr
    split
    · exact Nat.zero_le _
    · rename_i hcond
      rw [Bool.and_eq_true, decide_eq_true_eq, decide_eq_true_eq] at hcond
      -- both children are compared, and the two entries exchanged
      have hlog : 1 ≤ Nat.log 2 (size / (k + 1)) :=
        Nat.log_pos (by omega) ((Nat.le_div_iff_mul_le (Nat.succ_pos k)).mpr (by omega))
      refine (length_log_bind_le (n := 10 * Nat.log 2 (size / (k + 1)) - 2) (fun c₁ hc₁ => ?_)).trans ?_
      · refine (length_log_bind_le (n := 10 * Nat.log 2 (size / (k + 1)) - 4) (fun c hc => ?_)).trans ?_
        · split
          · exact Nat.zero_le _
          · rename_i hck
            have hchild : 2 * k + 1 ≤ c ∧ c < size := by
              rcases pick_cases hc with rfl | ⟨rfl, hlt⟩
              · rcases pick_cases hc₁ with rfl | ⟨rfl, hlt⟩
                · exact absurd rfl hck
                · exact ⟨Nat.le_refl _, hlt⟩
              · exact ⟨Nat.le_succ _, hlt⟩
            have hdown := log_down hchild.1 hchild.2
            refine (length_log_bind_le (fun buf _ => ih buf c)).trans ?_
            have hswap := cost_swap heap k c
            omega
        · have hpick := @cost_pick D wrong cmp heap size c₁ (2 * k + 2)
          omega
      · have hpick := @cost_pick D wrong cmp heap size k (2 * k + 1)
        omega

/-! ### The calls -/

/-- **The cost of an insertion.** -/
theorem cost_heapInsert (h : HeapT D) (alloc : D → Option D) (data : Option D) :
    (heapInsert wrong h alloc data).log.length ≤ 7 * Nat.log 2 (h.size + 1) + 2 := by
  cases data with
  | none => exact Nat.zero_le _
  | some x =>
    rw [heapInsert]
    split
    · exact Nat.zero_le _
    · cases alloc x with
      | none => exact Nat.zero_le _
      | some y =>
        refine (length_log_bind_le (n := 7 * Nat.log 2 (h.size + 1) + 1) (fun buf _ => ?_)).trans
          (by rw [cost_putAt]; omega)
        exact (length_log_map_le _).trans (cost_heapifyUp _ _ _)

/-- **The cost of a deletion.** -/
theorem cost_heapDelete (h : HeapT D) :
    (heapDelete wrong h).log.length ≤ 10 * Nat.log 2 (h.size - 1) + 7 := by
  rw [heapDelete]
  split
  · exact Nat.zero_le _
  · have hswap := cost_swap h.data 0 (h.size - 1)
    refine (length_log_bind_le (n := 10 * Nat.log 2 (h.size - 1) + 3) (fun buf _ => ?_)).trans
      (by omega)
    refine (length_log_bind_le (n := 10 * Nat.log 2 (h.size - 1) + 2) (fun freed _ => ?_)).trans
      (by rw [cost_getAt]; omega)
    have hdown := @cost_heapifyDown D wrong h.cmp (h.size - 1) (h.size - 1 + 1) buf 0
    rw [Nat.zero_add, Nat.div_one] at hdown
    exact (length_log_map_le _).trans hdown

/-! ### Whole runs -/

/-- A call on a heap, with what it is given. -/
inductive Call (D : Type)
  | insert (alloc : D → Option D) (data : Option D)
  | delete

/-- One call. -/
def Calls.run (C : Calls D) (h : HeapT D) : Call D → Traced Event (HeapT D)
  | .insert alloc data => do
      let (_, h) ← C.insert h alloc data
      return h
  | .delete => do
      let (_, _, h) ← C.delete h
      return h

/-- The heap has `n` places and no more entries. -/
def Sized (n : Nat) (h : HeapT D) : Prop := h.capacity = n ∧ h.size ≤ n

theorem Sized.insert {n : Nat} {h : HeapT D} (hh : Sized n h) {alloc : D → Option D}
    {data : Option D} {r : Int × HeapT D} (hr : (heapInsert wrong h alloc data).result = some r) :
    Sized n r.2 := by
  rw [result_heapInsert] at hr
  cases data with
  | none => exact Option.some.inj hr ▸ hh
  | some x =>
    rw [Heap.heapInsert] at hr
    split at hr
    · exact Option.some.inj hr ▸ hh
    · rename_i hfull
      rw [isFull, beq_iff_eq] at hfull
      split at hr
      · exact Option.some.inj hr ▸ hh
      · obtain ⟨_, _, hr⟩ := Option.bind_eq_some_iff.mp hr
        obtain ⟨_, _, hr⟩ := Option.bind_eq_some_iff.mp hr
        rw [← Option.some.inj hr]
        have hlt : h.size < n := Nat.lt_of_le_of_ne hh.2 (fun he => hfull (he.trans hh.1.symm))
        exact ⟨hh.1, hlt⟩

theorem Sized.delete {n : Nat} {h : HeapT D} (hh : Sized n h) {r : Int × Option D × HeapT D}
    (hr : (heapDelete wrong h).result = some r) : Sized n r.2.2 := by
  rw [result_heapDelete, Heap.heapDelete] at hr
  split at hr
  · exact Option.some.inj hr ▸ hh
  · obtain ⟨_, _, hr⟩ := Option.bind_eq_some_iff.mp hr
    obtain ⟨_, _, hr⟩ := Option.bind_eq_some_iff.mp hr
    obtain ⟨_, _, hr⟩ := Option.bind_eq_some_iff.mp hr
    rw [← Option.some.inj hr]
    exact ⟨hh.1, (Nat.sub_le _ _).trans hh.2⟩

/-- One more entry adds at most one level. -/
theorem log_succ_le (n : Nat) : Nat.log 2 (n + 1) ≤ Nat.log 2 n + 1 := by
  by_cases h0 : n = 0
  · subst h0
    exact Nat.zero_le _
  · rw [← Nat.log_mul_base (by decide) h0]
    exact Nat.log_mono_right (by omega)

variable (wrong) in
/-- **One call** of a run. -/
theorem Sized.run {n : Nat} {h : HeapT D} (hh : Sized n h) (c : Call D) :
    (Calls.run ⟨heapInsert wrong, heapDelete wrong⟩ h c).log.length ≤ 10 * Nat.log 2 n + 9 ∧
      ∀ h', (Calls.run ⟨heapInsert wrong, heapDelete wrong⟩ h c).result = some h' → Sized n h' := by
  cases c with
  | insert alloc data =>
    refine ⟨?_, fun h' hr => ?_⟩
    · refine (length_log_map_le _).trans ((cost_heapInsert h alloc data).trans ?_)
      have hmono := Nat.log_mono_right (b := 2) (Nat.add_le_add_right hh.2 1)
      have hsucc := log_succ_le n
      omega
    · rw [Calls.run, result_bind] at hr
      obtain ⟨r, hr, he⟩ := Option.bind_eq_some_iff.mp hr
      exact Option.some.inj he ▸ hh.insert hr
  | delete =>
    refine ⟨?_, fun h' hr => ?_⟩
    · refine (length_log_map_le _).trans ((cost_heapDelete h).trans ?_)
      have hmono := Nat.log_mono_right (b := 2) ((Nat.sub_le h.size 1).trans hh.2)
      omega
    · rw [Calls.run, result_bind] at hr
      obtain ⟨r, hr, he⟩ := Option.bind_eq_some_iff.mp hr
      exact Option.some.inj he ▸ hh.delete hr

/-- **Every call costs a logarithm** of the entries, and a sequence of calls on a new heap no more
than as many logarithms of the capacity. -/
structure LogCost (C : Calls D) : Prop where
  insert : ∀ h alloc data, (C.insert h alloc data).log.length ≤ 7 * Nat.log 2 (h.size + 1) + 2
  delete : ∀ h, (C.delete h).log.length ≤ 10 * Nat.log 2 (h.size - 1) + 7
  run : ∀ capacity cmp outcomes h, heapInit capacity cmp outcomes = some h → ∀ calls : List (Call D),
    (calls.foldlM C.run h).log.length ≤ calls.length * (10 * Nat.log 2 capacity.toNat + 9)

theorem logCost_of (wrong : Int → Bool) :
    LogCost (D := D) ⟨heapInsert wrong, heapDelete wrong⟩ where
  insert := cost_heapInsert
  delete := cost_heapDelete
  run capacity cmp outcomes h hinit calls := by
    have hh : Sized capacity.toNat h := by
      rw [heapInit] at hinit
      split_ifs at hinit
      exact Option.some.inj hinit ▸ ⟨rfl, Nat.zero_le _⟩
    exact length_log_foldlM_le (Sized capacity.toNat) hh (fun _ c hs => hs.run wrong c)

/-- **The heaps are logarithmic**, whatever the callbacks answer. -/
theorem heap_cost : LogCost (minHeap (D := D)) ∧ LogCost (maxHeap (D := D)) :=
  ⟨logCost_of _, logCost_of _⟩

end DataStructures.Heap.Indices
