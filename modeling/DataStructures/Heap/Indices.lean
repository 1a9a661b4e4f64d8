import DataStructures.Heap.Order
import DataStructures.Lib.Trace

/-!
# The indices of a heap

The functions of the two files once more, with a log of what `PARENT_IDX`, `LEFT_IDX` and
`RIGHT_IDX` compute and of the places of the array that are read or written.  An index is logged
before it is known to fit, so one that overflows is the last in the log.  Without the log the
functions are those of the model (`result_heapInsert`, `result_heapDelete`).

`__heapify_down` computes both children of a place before it compares them with the size.  The
entries that are left after a deletion are one less than the capacity at most, so the last place it
comes to has children that fit exactly for the capacities up to 2^30
(`heap_inRange_iff`).
-/

namespace DataStructures.Heap.Indices

open Lib Traced

/-- An index that is computed, and one that is used. -/
inductive Event
  | computed (x : Int)
  | accessed (i : Int)

/-- It fits, and it is inside the array. -/
def Event.InRange (capacity : Int) : Event → Prop
  | computed x => -2147483648 ≤ x ∧ x ≤ 2147483647
  | accessed i => 0 ≤ i ∧ i < capacity

variable {D : Type}

/-- `PARENT_IDX`. -/
def parentIdx (x : Nat) : Traced Event Nat := do
  access (.computed (((x : Int) - 1).tdiv 2))
  return Heap.parentIdx x

/-- `LEFT_IDX`. -/
def leftIdx (x : Nat) : Traced Event Nat := do
  access (.computed (2 * x + 1))
  lift (Heap.leftIdx x)

/-- `RIGHT_IDX`. -/
def rightIdx (x : Nat) : Traced Event Nat := do
  access (.computed (2 * x + 2))
  lift (Heap.rightIdx x)

/-- `buf[i]`. -/
def getAt (buf : Buffer D) (i : Nat) : Traced Event D := do
  access (.accessed i)
  lift (Heap.getAt buf i)

/-- `buf[i] = x`. -/
def putAt (buf : Buffer D) (i : Nat) (x : D) : Traced Event (Buffer D) := do
  access (.accessed i)
  lift (Heap.putAt buf i x)

/-- `__swap`. -/
def swap (buf : Buffer D) (idx1 idx2 : Nat) : Traced Event (Buffer D) := do
  let x ← getAt buf idx1
  let y ← getAt buf idx2
  let buf ← putAt buf idx1 y
  putAt buf idx2 x

/-- `__heapify_up`. -/
def heapifyUp (wrong : Int → Bool) (cmp : D → D → Int) :
    Nat → Buffer D → Nat → Traced Event (Buffer D)
  | 0, _, _ => lift none
  | rounds + 1, heap, idx => do
      let pidx ← parentIdx idx
      if idx = 0 then return heap
      else do
        let p ← getAt heap pidx
        let x ← getAt heap idx
        if wrong (cmp p x) then
          let heap ← swap heap pidx idx
          heapifyUp wrong cmp rounds heap pidx
        else return heap

/-- `tmp`, or the child if it is there and may not stand below it. -/
def pick (wrong : Int → Bool) (cmp : D → D → Int) (heap : Buffer D) (size tmp child : Nat) :
    Traced Event Nat :=
  if child < size then do
    let x ← getAt heap tmp
    let y ← getAt heap child
    return if wrong (cmp x y) then child else tmp
  else pure tmp

/-- `__heapify_down`. -/
def heapifyDown (wrong : Int → Bool) (cmp : D → D → Int) (size : Nat) :
    Nat → Buffer D → Nat → Traced Event (Buffer D)
  | 0, _, _ => lift none
  | rounds + 1, heap, idx => do
      let lidx ← leftIdx idx
      let ridx ← rightIdx idx
      if lidx ≥ size && ridx ≥ size then return heap
      else do
        let tmp ← pick wrong cmp heap size idx lidx
        let tmp ← pick wrong cmp heap size tmp ridx
        if tmp = idx then return heap
        else do
          let heap ← swap heap idx tmp
          heapifyDown wrong cmp size rounds heap tmp

/-- `min_heap_insert` and `max_heap_insert`. -/
def heapInsert (wrong : Int → Bool) (h : HeapT D) (alloc : D → Option D) (data : Option D) :
    Traced Event (Int × HeapT D) :=
  match data with
  | none => pure (-1, h)
  | some data =>
      if isFull h then pure (-1, h)
      else
        match alloc data with
        | none => pure (-2, h)
        | some newData => do
            let idx := h.size
            let heap ← putAt h.data idx newData
            let heap ← heapifyUp wrong h.cmp (idx + 1) heap idx
            return (0, { h with data := heap, size := idx + 1 })

/-- `min_heap_delete` and `max_heap_delete`. -/
def heapDelete (wrong : Int → Bool) (h : HeapT D) : Traced Event (Int × Option D × HeapT D) :=
  if isEmpty h then pure (-1, none, h)
  else do
    let size := h.size - 1
    let heap ← swap h.data 0 size
    let freed ← getAt heap size
    let heap ← heapifyDown wrong h.cmp size (size + 1) heap 0
    return (0, some freed, { h with data := heap, size := size })

/-- The calls of one of the files. -/
structure Calls (D : Type) where
  insert : HeapT D → (D → Option D) → Option D → Traced Event (Int × HeapT D)
  delete : HeapT D → Traced Event (Int × Option D × HeapT D)

/-- `heap/min_heap.c`. -/
def minHeap : Calls D where
  insert := heapInsert (fun r => 0 < r)
  delete := heapDelete (fun r => 0 < r)

/-- `heap/max_heap.c`. -/
def maxHeap : Calls D where
  insert := heapInsert (fun r => r < 0)
  delete := heapDelete (fun r => r < 0)

/-! ### Without the log -/

section Result

variable (wrong : Int → Bool) (cmp : D → D → Int)

@[simp] theorem result_parentIdx (x : Nat) : (parentIdx x).result = some (Heap.parentIdx x) := rfl

@[simp] theorem result_leftIdx (x : Nat) : (leftIdx x).result = Heap.leftIdx x := rfl

@[simp] theorem result_rightIdx (x : Nat) : (rightIdx x).result = Heap.rightIdx x := rfl

@[simp] theorem result_getAt (buf : Buffer D) (i : Nat) :
    (getAt buf i).result = Heap.getAt buf i := rfl

@[simp] theorem result_putAt (buf : Buffer D) (i : Nat) (x : D) :
    (putAt buf i x).result = Heap.putAt buf i x := rfl

@[simp] theorem result_swap (buf : Buffer D) (i j : Nat) :
    (swap buf i j).result = Heap.swap buf i j := by
  simp [swap, Heap.swap]

@[simp] theorem result_heapifyUp (rounds : Nat) (heap : Buffer D) (idx : Nat) :
    (heapifyUp wrong cmp rounds heap idx).result = Heap.heapifyUp wrong cmp rounds heap idx := by
  induction rounds generalizing heap idx with
  | zero => rfl
  | succ rounds ih => simp [heapifyUp, Heap.heapifyUp, result_ite, ih]

@[simp] theorem result_pick (heap : Buffer D) (size tmp child : Nat) :
    (pick wrong cmp heap size tmp child).result = Heap.pick wrong cmp heap size tmp child := by
  simp [pick, Heap.pick, result_ite]

@[simp] theorem result_heapifyDown (size rounds : Nat) (heap : Buffer D) (idx : Nat) :
    (heapifyDown wrong cmp size rounds heap idx).result =
      Heap.heapifyDown wrong cmp size rounds heap idx := by
  induction rounds generalizing heap idx with
  | zero => rfl
  | succ rounds ih =>
    simp only [heapifyDown, Heap.heapifyDown, result_bind, result_leftIdx, result_rightIdx,
      result_ite, result_pure, result_pick, result_swap, ih]
    rfl

theorem result_heapInsert (h : HeapT D) (alloc : D → Option D) (data : Option D) :
    (heapInsert wrong h alloc data).result = Heap.heapInsert wrong h alloc data := by
  cases data with
  | none => rfl
  | some x =>
    rw [heapInsert, Heap.heapInsert, result_ite]
    cases alloc x with
    | none => rfl
    | some y => simp

theorem result_heapDelete (h : HeapT D) :
    (heapDelete wrong h).result = Heap.heapDelete wrong h := by
  simp [heapDelete, Heap.heapDelete, result_ite]

end Result

/-! ### Heaps that are small enough -/

variable {wrong : Int → Bool} {cmp : D → D → Int} {l : List D} {rest : Buffer D}
  {i j k rounds : Nat} {capacity : Int} {h : HeapT D} {inserted deleted : List D}

theorem getAt_ends (hi : i < l.length) (hcap : (l.length : Int) ≤ capacity) :
    Ends (Event.InRange capacity) (fun x => x = l[i]) (getAt (entries l rest) i) :=
  ends_access_bind ⟨Int.natCast_nonneg i, by omega⟩ (ends_lift (getAt_entries hi) rfl)

theorem putAt_ends (hi : i < l.length) (hcap : (l.length : Int) ≤ capacity) (x : D) :
    Ends (Event.InRange capacity) (fun buf => buf = entries (l.set i x) rest)
      (putAt (entries l rest) i x) :=
  ends_access_bind ⟨Int.natCast_nonneg i, by omega⟩ (ends_lift (putAt_entries hi x) rfl)

/-- **An exchange.** -/
theorem swap_ends (hi : i < l.length) (hj : j < l.length) (hcap : (l.length : Int) ≤ capacity) :
    Ends (Event.InRange capacity)
      (fun buf => ∃ l', buf = entries l' rest ∧ l'.length = l.length)
      (swap (entries l rest) i j) := by
  refine (getAt_ends hi hcap).bind (fun x _ => (getAt_ends hj hcap).bind (fun y _ => ?_))
  refine (putAt_ends hi hcap y).bind ?_
  rintro buf rfl
  have hlen : (l.set i y).length = l.length := List.length_set
  refine (putAt_ends (show j < (l.set i y).length by rwa [hlen]) (by rwa [hlen]) x).mono ?_
  rintro buf rfl
  exact ⟨_, rfl, by rw [List.length_set, hlen]⟩

/-- The division that rounds towards zero. -/
theorem tdiv_two (k : Nat) : ((k : Int) - 1).tdiv 2 = (Heap.parentIdx k : Nat) := by
  cases k with
  | zero => rfl
  | succ k =>
    rw [Int.natCast_succ, Int.add_sub_cancel, Heap.parentIdx, Nat.add_sub_cancel]
    exact (Int.ofNat_tdiv k 2).symm

/-- **`__heapify_up`**, whatever the callback answers. -/
theorem heapifyUp_ends (hk : k < l.length) (hcap : (l.length : Int) ≤ capacity)
    (hmax : capacity ≤ intMax) (hr : k < rounds) :
    Ends (Event.InRange capacity)
      (fun buf => ∃ l', buf = entries l' rest ∧ l'.length = l.length)
      (heapifyUp wrong cmp rounds (entries l rest) k) := by
  induction rounds generalizing l k with
  | zero => exact absurd hr (Nat.not_lt_zero k)
  | succ rounds ih =>
    have hfits : (Event.computed (((k : Int) - 1).tdiv 2)).InRange capacity := by
      have hle : Heap.parentIdx k ≤ k := Nat.le_trans (Nat.div_le_self _ _) (Nat.sub_le k 1)
      rw [tdiv_two]
      unfold intMax at hmax
      exact ⟨by omega, by omega⟩
    have hpidx : Ends (Event.InRange capacity) (fun p => p = Heap.parentIdx k) (parentIdx k) :=
      ends_access_bind hfits (ends_pure rfl)
    rw [heapifyUp]
    refine hpidx.bind ?_
    rintro _ rfl
    by_cases h0 : k = 0
    · rw [if_pos h0]
      exact ends_pure ⟨l, rfl, rfl⟩
    · rw [if_neg h0]
      have hlt : Heap.parentIdx k < k := BinaryHeap.parent_lt (Nat.pos_of_ne_zero h0)
      have hp : Heap.parentIdx k < l.length := Nat.lt_trans hlt hk
      refine (getAt_ends hp hcap).bind (fun p _ => (getAt_ends hk hcap).bind (fun x _ => ?_))
      by_cases hw : wrong (cmp p x) = true
      · rw [if_pos hw]
        refine (swap_ends hp hk hcap).bind ?_
        rintro buf ⟨l', rfl, hlen⟩
        rw [← hlen]
        exact ih (by omega) (by omega) (by omega)
      · rw [if_neg hw]
        exact ends_pure ⟨l, rfl, rfl⟩

theorem pick_ends (hi : i < l.length) (hcap : (l.length : Int) ≤ capacity) (j : Nat) :
    Ends (Event.InRange capacity) (fun c => c < l.length ∧ (c = i ∨ c = j))
      (pick wrong cmp (entries l rest) l.length i j) := by
  rw [pick]
  by_cases hj : j < l.length
  · rw [if_pos hj]
    refine (getAt_ends hi hcap).bind (fun x _ => (getAt_ends hj hcap).bind (fun y _ => ?_))
    refine ends_pure ?_
    split
    · exact ⟨hj, Or.inr rfl⟩
    · exact ⟨hi, Or.inl rfl⟩
  · rw [if_neg hj]
    exact ends_pure ⟨hi, Or.inl rfl⟩

/-- **`__heapify_down`** among less than 2^30 entries, whatever the callback answers. -/
theorem heapifyDown_ends (hk : k < l.length ∨ k = 0) (hcap : (l.length : Int) ≤ capacity)
    (hsize : l.length < 2 ^ 30) (hr : l.length < k + rounds) :
    Ends (Event.InRange capacity)
      (fun buf => ∃ l', buf = entries l' rest ∧ l'.length = l.length)
      (heapifyDown wrong cmp l.length rounds (entries l rest) k) := by
  induction rounds generalizing l k with
  | zero => omega
  | succ rounds ih =>
    have hbound : k < 2 ^ 30 - 1 := by omega
    have hleft : Heap.leftIdx k = some (2 * k + 1) := toIdx_of (by omega)
    have hright : Heap.rightIdx k = some (2 * k + 2) := toIdx_of (by omega)
    have hfits : ∀ x : Int, 0 ≤ x → x ≤ 2147483647 → (Event.computed x).InRange capacity :=
      fun x h0 hx => ⟨by omega, hx⟩
    have hl : Ends (Event.InRange capacity) (fun x => x = 2 * k + 1) (leftIdx k) :=
      ends_access_bind (hfits _ (by omega) (by omega)) (ends_lift hleft rfl)
    have hrt : Ends (Event.InRange capacity) (fun x => x = 2 * k + 2) (rightIdx k) :=
      ends_access_bind (hfits _ (by omega) (by omega)) (ends_lift hright rfl)
    refine hl.bind ?_
    rintro _ rfl
    refine hrt.bind ?_
    rintro _ rfl
    split
    · exact ends_pure ⟨l, rfl, rfl⟩
    · rename_i hcond
      rw [Bool.and_eq_true, decide_eq_true_eq, decide_eq_true_eq] at hcond
      have hk' : k < l.length := by omega
      refine (pick_ends hk' hcap (2 * k + 1)).bind (fun c₁ ⟨hc₁, hor₁⟩ => ?_)
      refine (pick_ends hc₁ hcap (2 * k + 2)).bind (fun c ⟨hc, hor⟩ => ?_)
      by_cases hck : c = k
      · rw [if_pos hck]
        exact ends_pure ⟨l, rfl, rfl⟩
      · rw [if_neg hck]
        refine (swap_ends hk' hc hcap).bind ?_
        rintro buf ⟨l', rfl, hlen⟩
        rw [← hlen]
        exact ih (Or.inl (by omega)) (by omega) (by omega) (by omega)

/-- The heap has entries `l`, in no order. -/
abbrev Filled (cmp : D → D → Int) (n : Nat) (h : HeapT D) (l : List D) : Prop :=
  Holds (fun _ _ => True) cmp n h l

variable (wrong) in
/-- **An insertion** stays in range, with any outcome. -/
theorem heapInsert_ends (h0 : 0 ≤ capacity) (hmax : capacity ≤ intMax)
    (hh : Filled cmp capacity.toNat h l) (alloc : D → Option D) (data : Option D) :
    Ends (Event.InRange capacity) (fun r => ∃ l', Filled cmp capacity.toNat r.2 l')
      (heapInsert wrong h alloc data) := by
  cases data with
  | none => exact ends_pure ⟨l, hh⟩
  | some x =>
    rw [heapInsert]
    by_cases hfull : isFull h = true
    · rw [if_pos hfull]
      exact ends_pure ⟨l, hh⟩
    rw [if_neg hfull]
    cases alloc x with
    | none => exact ends_pure ⟨l, hh⟩
    | some y =>
      have hroom : l.length < capacity.toNat :=
        Nat.lt_of_le_of_ne hh.le (mt hh.isFull_iff.mpr hfull)
      obtain ⟨rest, hdata⟩ := hh.data
      have hlen := hh.room
      rw [hdata, length_entries] at hlen
      obtain ⟨z, rest, rfl⟩ := List.exists_cons_of_length_pos (show 0 < rest.length by omega)
      have hl : (l ++ [y]).length = l.length + 1 := List.length_append
      dsimp only
      rw [hh.size, hdata, hh.cmp_eq]
      have hput : Ends (Event.InRange capacity) (fun buf => buf = entries (l ++ [y]) rest)
          (putAt (entries l (z :: rest)) l.length y) :=
        ends_access_bind ⟨Int.natCast_nonneg _, by omega⟩
          (ends_lift (putAt_entries_length l z y rest) rfl)
      refine hput.bind ?_
      rintro buf rfl
      refine (heapifyUp_ends (by omega) (by omega) hmax (Nat.lt_succ_self _)).bind ?_
      rintro buf ⟨l', rfl, hlen'⟩
      refine ends_pure ⟨l', ⟨rest, rfl⟩, ?_, ?_, hh.capacity, rfl, fun _ _ _ _ _ _ => trivial⟩
      · rw [hlen', hl]
      · rw [length_entries, hlen', hl, ← hlen, List.length_cons]
        omega

variable (wrong) in
/-- **A deletion** stays in range in a heap of at most 2^30 places. -/
theorem heapDelete_ends (h0 : 0 ≤ capacity) (hmax : capacity ≤ 2 ^ 30)
    (hh : Filled cmp capacity.toNat h l) :
    Ends (Event.InRange capacity) (fun r => ∃ l', Filled cmp capacity.toNat r.2.2 l')
      (heapDelete wrong h) := by
  rw [heapDelete]
  by_cases hempty : isEmpty h = true
  · rw [if_pos hempty]
    exact ends_pure ⟨l, hh⟩
  rw [if_neg hempty]
  have hne : l ≠ [] := mt hh.isEmpty_iff.mpr hempty
  obtain ⟨rest, hdata⟩ := hh.data
  have hle := hh.le
  have hpos := List.length_pos_of_ne_nil hne
  dsimp only
  rw [hh.size, hdata, hh.cmp_eq]
  refine (swap_ends hpos (show l.length - 1 < l.length by omega) (by omega)).bind ?_
  rintro buf ⟨l₁, rfl, hlen₁⟩
  refine (getAt_ends (show l.length - 1 < l₁.length by omega) (by omega)).bind (fun freed _ => ?_)
  -- the last entry is not among those that are sifted
  obtain ⟨l₂, z, rfl⟩ : ∃ l₂ z, l₁ = l₂ ++ [z] :=
    ⟨_, _, (List.dropLast_concat_getLast (List.ne_nil_of_length_pos (by omega))).symm⟩
  rw [List.length_append, List.length_singleton] at hlen₁
  have hlen₂ : l.length - 1 = l₂.length := by omega
  rw [entries_concat, hlen₂]
  refine (heapifyDown_ends (Or.inr rfl) (by omega) (by omega) (by omega)).bind ?_
  rintro buf ⟨l', rfl, hlen'⟩
  refine ends_pure ⟨l', ⟨_, rfl⟩, hlen'.symm, ?_, hh.capacity, rfl, fun _ _ _ _ _ _ => trivial⟩
  have hroom := hh.room
  rw [hdata, length_entries] at hroom
  rw [length_entries, hlen', List.length_cons]
  omega

/-- **What a run leaves**, whatever the callback answers. -/
theorem run_filled (hmax : capacity ≤ 2 ^ 30)
    (hrun : Run (functionsOf wrong) capacity cmp h inserted deleted) :
    0 ≤ capacity ∧ ∃ l, Filled cmp capacity.toNat h l := by
  induction hrun with
  | init hinit => exact ⟨heapInit_nonneg hinit, [], heapInit_holds hinit⟩
  | insert alloc data prior call ih =>
    obtain ⟨h0, l, hh⟩ := ih
    have hmax' : capacity ≤ intMax := by
      unfold intMax
      omega
    obtain ⟨-, r, hr, hfilled⟩ := heapInsert_ends wrong h0 hmax' hh alloc data
    rw [result_heapInsert] at hr
    obtain rfl := Option.some.inj (hr.symm.trans call)
    exact ⟨h0, hfilled⟩
  | delete prior call ih =>
    obtain ⟨h0, l, hh⟩ := ih
    obtain ⟨-, r, hr, hfilled⟩ := heapDelete_ends wrong h0 hmax hh
    rw [result_heapDelete] at hr
    obtain rfl := Option.some.inj (hr.symm.trans call)
    exact ⟨h0, hfilled⟩

/-! ### Heaps that are too large -/

section Large

variable {cmp : Nat → Nat → Int} (hw : ∀ x y, wrong (cmp x y) = decide (y < x))

include hw

/-- Of two entries the smaller one is picked. -/
theorem pick_of_some {l : List Nat} {rest : Buffer Nat} {size x y : Nat} (hi : l[i]? = some x)
    (hj : l[j]? = some y) (hlt : j < size) :
    Heap.pick wrong cmp (entries l rest) size i j = some (if y < x then j else i) := by
  obtain ⟨hil, rfl⟩ := List.getElem?_eq_some_iff.mp hi
  obtain ⟨hjl, rfl⟩ := List.getElem?_eq_some_iff.mp hj
  simp [Heap.pick, hlt, getAt_entries hil, getAt_entries hjl, hw]

/-- **On the way down from `k`** an entry that is larger than all others comes to the places at the
left below it. -/
theorem computed_leftmost {size : Nat} (m : Nat) {l : List Nat} {rest : Buffer Nat} {x : Nat}
    (hlen : size ≤ l.length) (hx : l[k]? = some x) (hsize : size ≤ x)
    (hid : ∀ i, k < i → i < size → l[i]? = some i) (hlt : 2 ^ m * (k + 1) - 1 < size)
    (hbound : 2 ^ m * (k + 1) ≤ 2 ^ 30) (hr : m < rounds) :
    .computed (2 * (2 ^ m * (k + 1) : Nat)) ∈
      (heapifyDown wrong cmp size rounds (entries l rest) k).log := by
  induction m generalizing k l rounds with
  | zero =>
    rw [Nat.pow_zero, Nat.one_mul] at *
    have hleft : (leftIdx k).result = some (2 * k + 1) := toIdx_of (by omega)
    obtain ⟨rounds, rfl⟩ : ∃ n, rounds = n + 1 := ⟨rounds - 1, by omega⟩
    rw [heapifyDown, rightIdx, show (2 * (k + 1 : Nat) : Int) = 2 * k + 2 by omega]
    exact mem_log_bind_right hleft (mem_log_bind_left mem_log_access_bind)
  | succ m ih =>
    have hpow : 2 ^ (m + 1) * (k + 1) = 2 ^ m * (2 * k + 1 + 1) := by
      rw [Nat.pow_succ, Nat.mul_assoc]
      exact congrArg _ (by omega)
    have hpos : 2 * k + 1 + 1 ≤ 2 ^ m * (2 * k + 1 + 1) :=
      Nat.le_mul_of_pos_left _ (Nat.pow_pos (by decide))
    rw [hpow] at hlt hbound ⊢
    have hleft : (leftIdx k).result = some (2 * k + 1) := toIdx_of (by omega)
    have hright : (rightIdx k).result = some (2 * k + 2) := toIdx_of (by omega)
    have hl : l[2 * k + 1]? = some (2 * k + 1) := hid _ (by omega) (by omega)
    have hk : k < l.length := by omega
    have hk' : 2 * k + 1 < l.length := by omega
    obtain ⟨rounds, rfl⟩ : ∃ n, rounds = n + 1 := ⟨rounds - 1, by omega⟩
    -- the child at the left is picked, and the one at the right is larger
    have hpick : (pick wrong cmp (entries l rest) size k (2 * k + 1)).result =
        some (2 * k + 1) := by
      rw [result_pick, pick_of_some hw hx hl (by omega), if_pos (by omega)]
    have hpick' : (pick wrong cmp (entries l rest) size (2 * k + 1) (2 * k + 2)).result =
        some (2 * k + 1) := by
      rw [result_pick]
      by_cases hr' : 2 * k + 2 < size
      · rw [pick_of_some hw hl (hid _ (by omega) hr') hr', if_neg (by omega)]
      · exact if_neg hr'
    have hswap : (swap (entries l rest) k (2 * k + 1)).result =
        some (entries (BinaryHeap.swap l k (2 * k + 1) hk hk') rest) := by
      rw [result_swap, swap_entries hk hk']
    have hcond : ¬ (decide (2 * k + 1 ≥ size) && decide (2 * k + 2 ≥ size)) = true := by
      rw [Bool.and_eq_true, decide_eq_true_eq, decide_eq_true_eq]
      omega
    rw [heapifyDown]
    refine mem_log_bind_right hleft (mem_log_bind_right hright ?_)
    rw [if_neg hcond]
    refine mem_log_bind_right hpick (mem_log_bind_right hpick' ?_)
    rw [if_neg (by omega)]
    refine mem_log_bind_right hswap (ih ?_ ?_ (fun i hi hsi => ?_) hlt hbound (by omega))
    · rwa [BinaryHeap.length_swap]
    · rw [BinaryHeap.getElem?_swap_right, hx]
    · rw [BinaryHeap.getElem?_swap_of_ne hk hk' (by omega) (by omega)]
      exact hid i (by omega) hsi

/-- The heap with the data below `n`, inserted in their order. -/
def ascending (cmp : Nat → Nat → Int) (capacity n : Nat) : HeapT Nat :=
  ⟨entries (List.range n) (List.replicate (capacity - n) none), n, capacity, cmp⟩

theorem heapInsert_ascending {capacity n : Nat} (hn : n < capacity) :
    Heap.heapInsert wrong (ascending cmp capacity n) some (some n) =
      some (0, ascending cmp capacity (n + 1)) := by
  have hfull : ¬ isFull (ascending cmp capacity n) = true := by
    rw [isFull, beq_iff_eq]
    exact Nat.ne_of_lt hn
  have hrep : List.replicate (capacity - n) (none : Option Nat) =
      none :: List.replicate (capacity - (n + 1)) none := by
    rw [show capacity - n = capacity - (n + 1) + 1 by omega, List.replicate_succ]
  have hput : Heap.putAt (ascending cmp capacity n).data n n =
      some (ascending cmp capacity (n + 1)).data := by
    have hp := putAt_entries_length (List.range n) none n (List.replicate (capacity - (n + 1)) none)
    rwa [List.length_range, ← List.range_succ, ← hrep] at hp
  -- no entry in front of it is larger
  have hup : Heap.heapifyUp wrong cmp (n + 1) (ascending cmp capacity (n + 1)).data n =
      some (ascending cmp capacity (n + 1)).data := by
    rw [Heap.heapifyUp]
    by_cases h0 : n = 0
    · exact if_pos h0
    · have hlt : Heap.parentIdx n < n := BinaryHeap.parent_lt (Nat.pos_of_ne_zero h0)
      have hget : ∀ i ≤ n, Heap.getAt (ascending cmp capacity (n + 1)).data i = some i := by
        intro i hi
        have hi' : i < (List.range (n + 1)).length := by
          rw [List.length_range]
          omega
        rw [ascending, getAt_entries hi', List.getElem_range]
      have hno : ¬ wrong (cmp (Heap.parentIdx n) n) = true := by
        rw [hw, decide_eq_true_eq]
        omega
      simp [h0, hget _ (Nat.le_of_lt hlt), hget n (Nat.le_refl n), hno]
  have hsize : (ascending cmp capacity n).size = n := rfl
  have hcmp : (ascending cmp capacity n).cmp = cmp := rfl
  simp only [Heap.heapInsert, if_neg hfull, hsize, hcmp, hput, hup, Option.bind_eq_bind,
    Option.bind_some]
  rfl

theorem run_ascending {capacity n : Nat} (hn : n ≤ capacity) : ∃ inserted,
    Run (functionsOf wrong) capacity cmp (ascending cmp capacity n) inserted [] := by
  induction n with
  | zero =>
    have hneg : ¬ (capacity : Int) < 0 := by omega
    have hinit : (functionsOf wrong).init (capacity : Int) cmp .allOk =
        some (ascending cmp capacity 0) := by
      change heapInit (capacity : Int) cmp .allOk = some (ascending cmp capacity 0)
      rw [heapInit, if_neg hneg]
      rfl
    exact ⟨[], .init hinit⟩
  | succ n ih =>
    obtain ⟨inserted, hrun⟩ := ih (Nat.le_of_succ_le hn)
    exact ⟨_, hrun.insert some (some n) (heapInsert_ascending hw hn)⟩

/-- **A deletion overflows** in a heap of more than 2^30 entries. -/
theorem computed_ascending {capacity n : Nat} (hn : 2 ^ 30 ≤ n) :
    .computed 2147483648 ∈ (heapDelete wrong (ascending cmp capacity (n + 1))).log := by
  have hempty : ¬ isEmpty (ascending cmp capacity (n + 1)) = true := by
    rw [isEmpty, beq_iff_eq]
    exact Nat.succ_ne_zero n
  have hrange : ∀ i < n + 1, (List.range (n + 1))[i]? = some i := fun i hi =>
    List.getElem?_range hi
  have h0 : 0 < (List.range (n + 1)).length := by
    rw [List.length_range]
    omega
  have hlast : n < (List.range (n + 1)).length := by
    rw [List.length_range]
    omega
  have hlen := BinaryHeap.length_swap h0 hlast
  rw [List.length_range] at hlen
  have hswap : (swap (ascending cmp capacity (n + 1)).data 0 n).result =
      some (entries (BinaryHeap.swap (List.range (n + 1)) 0 n h0 hlast)
        (List.replicate (capacity - (n + 1)) none)) := by
    rw [result_swap]
    exact swap_entries h0 hlast
  obtain ⟨freed, hget⟩ : ∃ freed, (getAt (entries
      (BinaryHeap.swap (List.range (n + 1)) 0 n h0 hlast)
      (List.replicate (capacity - (n + 1)) none)) n).result = some freed :=
    ⟨_, getAt_entries (by omega)⟩
  have hdown : .computed (2 * (2 ^ 30 * (0 + 1) : Nat)) ∈ (heapifyDown wrong cmp n (n + 1)
      (entries (BinaryHeap.swap (List.range (n + 1)) 0 n h0 hlast)
        (List.replicate (capacity - (n + 1)) none)) 0).log := by
    refine computed_leftmost hw (x := n) 30 (by omega) ?_ (Nat.le_refl n) (fun i hi hin => ?_)
      (by omega) (Nat.le_refl _) (by omega)
    · rw [BinaryHeap.getElem?_swap_left, hrange n (Nat.lt_succ_self n)]
    · rw [BinaryHeap.getElem?_swap_of_ne h0 hlast (by omega) (by omega), hrange i (by omega)]
  rw [heapDelete, if_neg hempty]
  exact mem_log_bind_right hswap (mem_log_bind_right hget (mem_log_bind_left hdown))

end Large

/-! ### The two files -/

/-- **In every heap that can be reached**, a call computes only indices that fit and uses only
places of the array. -/
def StaysInRange (F : Functions D) (C : Calls D) (capacity : Int) (cmp : D → D → Int) : Prop :=
  ∀ h inserted deleted, Run F capacity cmp h inserted deleted →
    (∀ alloc data, Within (Event.InRange capacity) (C.insert h alloc data)) ∧
      Within (Event.InRange capacity) (C.delete h)

theorem staysInRange (hmax : capacity ≤ 2 ^ 30) (cmp : D → D → Int) :
    StaysInRange (functionsOf wrong) ⟨heapInsert wrong, heapDelete wrong⟩ capacity cmp := by
  intro h inserted deleted hrun
  obtain ⟨h0, l, hh⟩ := run_filled hmax hrun
  have hmax' : capacity ≤ intMax := by
    unfold intMax
    omega
  exact ⟨fun alloc data => (heapInsert_ends wrong h0 hmax' hh alloc data).within,
    (heapDelete_ends wrong h0 hmax hh).within⟩

theorem not_staysInRange {cmp : Nat → Nat → Int} (hw : ∀ x y, wrong (cmp x y) = decide (y < x))
    (hmax : 2 ^ 30 < capacity) :
    ¬ StaysInRange (functionsOf wrong) ⟨heapInsert wrong, heapDelete wrong⟩ capacity cmp := by
  intro hstays
  obtain ⟨n, rfl⟩ : ∃ n : Nat, capacity = n := ⟨capacity.toNat, by omega⟩
  obtain ⟨inserted, hrun⟩ := run_ascending hw (show 2 ^ 30 + 1 ≤ n by omega)
  have hfits := (hstays _ _ _ hrun).2 _ (computed_ascending hw (Nat.le_refl _))
  exact absurd hfits.2 (by decide)

/-- The callback of a min-heap of numbers. -/
def ascends (x y : Nat) : Int := (x : Int) - y

/-- The callback of a max-heap whose largest number is 0. -/
def descends (x y : Nat) : Int := (y : Int) - x

theorem ascends_wrong (x y : Nat) : decide (0 < ascends x y) = decide (y < x) :=
  decide_eq_decide.mpr (by unfold ascends; omega)

theorem descends_wrong (x y : Nat) : decide (descends x y < 0) = decide (y < x) :=
  decide_eq_decide.mpr (by unfold descends; omega)

/-- **The indices stay in range for the capacities up to 2^30 and no others**, in both files and
whatever the callbacks are. -/
theorem heap_inRange_iff (capacity : Int) :
    ((∀ (D : Type) (cmp : D → D → Int), StaysInRange Heap.minHeap minHeap capacity cmp) ↔
      capacity ≤ 2 ^ 30) ∧
    ((∀ (D : Type) (cmp : D → D → Int), StaysInRange Heap.maxHeap maxHeap capacity cmp) ↔
      capacity ≤ 2 ^ 30) := by
  refine ⟨⟨fun h => ?_, fun hmax D cmp => staysInRange hmax cmp⟩,
    ⟨fun h => ?_, fun hmax D cmp => staysInRange hmax cmp⟩⟩
  · by_contra hmax
    exact not_staysInRange ascends_wrong (Int.not_le.mp hmax) (h Nat ascends)
  · by_contra hmax
    exact not_staysInRange descends_wrong (Int.not_le.mp hmax) (h Nat descends)

/-- After 2^30 + 1 insertions in ascending order, `min_heap_delete` computes an index that does
not fit. -/
theorem heap_inRange_fails :
    (∃ inserted, Run Heap.minHeap 1073741825 ascends (ascending ascends 1073741825 1073741825)
      inserted []) ∧
    .computed 2147483648 ∈ (minHeap.delete (ascending ascends 1073741825 1073741825)).log ∧
    ¬ StaysInRange Heap.minHeap minHeap 1073741825 ascends :=
  ⟨run_ascending ascends_wrong (Nat.le_refl _), computed_ascending ascends_wrong (by decide),
    not_staysInRange ascends_wrong (by decide)⟩

end DataStructures.Heap.Indices
