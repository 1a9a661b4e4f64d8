import DataStructures.Heap.Sift
import DataStructures.Lib.Comparison

/-!
# Heaps over whole runs

`Run F capacity cmp h inserted deleted`: the heap `h` is what `init` and then inserts and deletes
leave, in any order and with any outcome; `inserted` are the data that the successful inserts
stored and `deleted` those that the deletes freed.  `Holds r cmp n h l`: the heap has the entries
`l`, in heap order, and room for `n`.

`heap_correct`: both files keep the order and account for every datum, and a delete takes out the
datum that `peek` answers, one that no other has to stand above.
-/

namespace DataStructures.Heap

open Lib BinaryHeap

variable {D : Type} {wrong : Int → Bool} {cmp : D → D → Int} {r : D → D → Prop} {l : List D}
  {h : HeapT D} {n : Nat}

/-! ### One heap -/

/-- The heap has the entries `l`, in heap order. -/
structure Holds (r : D → D → Prop) (cmp : D → D → Int) (n : Nat) (h : HeapT D) (l : List D) :
    Prop where
  data : ∃ rest, h.data = entries l rest
  size : h.size = l.length
  room : h.data.length = n
  capacity : h.capacity = n
  cmp_eq : h.cmp = cmp
  ordered : Ordered r l

theorem Holds.le (hh : Holds r cmp n h l) : l.length ≤ n := by
  obtain ⟨rest, hdata⟩ := hh.data
  rw [← hh.room, hdata, length_entries]
  exact Nat.le_add_right _ _

theorem Holds.isFull_iff (hh : Holds r cmp n h l) : isFull h = true ↔ l.length = n := by
  rw [isFull, hh.size, hh.capacity, beq_iff_eq]

theorem Holds.isEmpty_iff (hh : Holds r cmp n h l) : isEmpty h = true ↔ l = [] := by
  rw [isEmpty, hh.size, beq_iff_eq, List.length_eq_zero_iff]

/-- The entry at a place of the array. -/
theorem Holds.getAt_eq (hh : Holds r cmp n h l) {i : Nat} (hi : i < l.length) :
    getAt h.data i = some l[i] := by
  obtain ⟨rest, hdata⟩ := hh.data
  rw [hdata, getAt_entries hi]

theorem Holds.take_eq (hh : Holds r cmp n h l) : h.data.take h.size = l.map some := by
  obtain ⟨rest, hdata⟩ := hh.data
  rw [hdata, hh.size, entries, List.take_left' (List.length_map ..)]

/-- **`init`**: an empty heap. -/
theorem heapInit_holds {capacity : Int} {outcomes : Outcomes}
    (hi : heapInit capacity cmp outcomes = some h) : Holds r cmp capacity.toNat h [] := by
  rw [heapInit] at hi
  split_ifs at hi
  obtain rfl := Option.some.inj hi
  exact ⟨⟨_, rfl⟩, rfl, List.length_replicate, rfl, rfl, fun i _ x hx => by cases hx⟩

/-- A negative capacity is refused. -/
theorem heapInit_nonneg {capacity : Int} {outcomes : Outcomes}
    (hi : heapInit capacity cmp outcomes = some h) : 0 ≤ capacity := by
  by_contra hneg
  have hnull : heapInit capacity cmp outcomes = none := if_pos (by omega)
  exact absurd (hnull.symm.trans hi) (Option.some_ne_none h).symm

/-- **The insertion** of a datum in a heap with room. -/
theorem Holds.insert (hf : Follows wrong cmp r) (hh : Holds r cmp n h l) (hroom : l.length < n)
    {alloc : D → Option D} {x y : D} (ha : alloc x = some y) :
    ∃ h' l', heapInsert wrong h alloc (some x) = some (0, h') ∧ Holds r cmp n h' l' ∧
      l'.Perm (y :: l) := by
  obtain ⟨rest, hdata⟩ := hh.data
  have hlen := hh.room
  rw [hdata, length_entries] at hlen
  obtain ⟨z, rest, rfl⟩ := List.exists_cons_of_length_pos (show 0 < rest.length by omega)
  have hfull : ¬ isFull h = true := by
    rw [hh.isFull_iff]
    omega
  have hk : l.length < (l ++ [y]).length := by
    rw [List.length_append]
    exact Nat.lt_succ_self _
  obtain ⟨l', hup, hperm, hord⟩ := heapifyUp_spec rest hf (hh.ordered.concat y) hk
    (Nat.lt_succ_self _)
  have hperm' : l'.Perm (y :: l) := hperm.trans (List.perm_append_singleton y l)
  have hlen' : l'.length = l.length + 1 := hperm'.length_eq
  refine ⟨{ h with data := entries l' rest, size := l.length + 1 }, l', ?_, ?_, hperm'⟩
  · simp only [heapInsert, if_neg hfull, ha, hdata, hh.size, hh.cmp_eq, putAt_entries_length, hup,
      Option.bind_eq_bind, Option.bind_some]
    rfl
  · refine ⟨⟨rest, rfl⟩, hlen'.symm, ?_, hh.capacity, hh.cmp_eq, hord⟩
    rw [length_entries, hlen', ← hlen, List.length_cons]
    omega

/-- A heap is left as it was by an insertion that fails. -/
theorem Holds.insert_fails (wrong : Int → Bool) (hh : Holds r cmp n h l) {alloc : D → Option D}
    {data : Option D}
    (hno : ¬ (l.length < n ∧ ∃ x ∈ data, (alloc x).isSome)) :
    ∃ rv, heapInsert wrong h alloc data = some (rv, h) ∧ rv < 0 := by
  cases data with
  | none => exact ⟨-1, rfl, by decide⟩
  | some x =>
    rw [heapInsert]
    by_cases hfull : isFull h = true
    · rw [if_pos hfull]
      exact ⟨-1, rfl, by decide⟩
    · have hroom : l.length < n := Nat.lt_of_le_of_ne hh.le (mt hh.isFull_iff.mpr hfull)
      rw [if_neg hfull]
      cases ha : alloc x with
      | none => exact ⟨-2, rfl, by decide⟩
      | some y => exact absurd ⟨hroom, x, rfl, by rw [ha]; rfl⟩ hno

/-- **The deletion** takes out the first entry. -/
theorem Holds.delete (hf : Follows wrong cmp r) (hn : n < 2 ^ 30) {x : D} {t : List D}
    (hh : Holds r cmp n h (x :: t)) :
    ∃ h' l', heapDelete wrong h = some (0, some x, h') ∧ Holds r cmp n h' l' ∧ l'.Perm t := by
  obtain ⟨rest, hdata⟩ := hh.data
  have hsize : h.size - 1 = t.length := by rw [hh.size, List.length_cons, Nat.add_sub_cancel]
  have hempty : ¬ isEmpty h = true := by
    rw [hh.isEmpty_iff]
    exact List.cons_ne_nil x t
  have h0 : 0 < (x :: t).length := Nat.succ_pos _
  have hlast : t.length < (x :: t).length := Nat.lt_succ_self _
  -- the first entry stands behind the others after the exchange
  obtain ⟨s, hs, hperm, hhole⟩ := hh.ordered.swap_last h0 hlast
  have hslen : s.length = t.length := hperm.length_eq
  have hfreed : getAt (entries s (some x :: rest)) t.length = some x := by
    rw [← hslen, getAt_entries_length]
  have hbound := hh.le
  rw [List.length_cons] at hbound
  have hk : 0 < s.length ∨ 0 = 0 ∧ s = [] := by
    rw [← List.length_eq_zero_iff]
    omega
  obtain ⟨l', hdown, hperm', hord⟩ := heapifyDown_spec (some x :: rest) hf hhole hk (by omega)
    (show s.length < 0 + (t.length + 1) by omega)
  rw [hslen] at hdown
  refine ⟨{ h with data := entries l' (some x :: rest), size := t.length }, l', ?_, ?_,
    hperm'.trans hperm⟩
  · simp only [heapDelete, if_neg hempty, hsize, hdata, swap_entries h0 hlast, hs, entries_concat, hfreed,
      hh.cmp_eq, hdown, Option.bind_eq_bind, Option.bind_some]
    rfl
  · have hl' : l'.length = t.length := (hperm'.trans hperm).length_eq
    refine ⟨⟨_, rfl⟩, hl'.symm, ?_, hh.capacity, hh.cmp_eq, hord⟩
    have hroom := hh.room
    rw [hdata, length_entries, List.length_cons] at hroom
    rw [length_entries, hl', List.length_cons]
    omega

theorem Holds.delete_nil (wrong : Int → Bool) (hh : Holds r cmp n h []) :
    heapDelete wrong h = some (-1, none, h) := by
  rw [heapDelete, if_pos (hh.isEmpty_iff.mpr rfl)]

/-- **`peek`** answers the first entry. -/
theorem Holds.peek (hh : Holds r cmp n h l) : heapPeek h = some l.head? := by
  cases l with
  | nil => rw [heapPeek, if_pos (hh.isEmpty_iff.mpr rfl)]; rfl
  | cons x t =>
    rw [heapPeek, if_neg (fun he => absurd (hh.isEmpty_iff.mp he) (List.cons_ne_nil x t)),
      hh.getAt_eq (Nat.succ_pos _)]
    rfl

/-! ### Whole runs -/

/-- What `init` and then inserts and deletes leave. -/
inductive Run (F : Functions D) (capacity : Int) (cmp : D → D → Int) :
    HeapT D → List D → List D → Prop
  | init {outcomes h} (hinit : F.init capacity cmp outcomes = some h) : Run F capacity cmp h [] []
  | insert {h h' rv inserted deleted} (alloc : D → Option D) (data : Option D)
      (prior : Run F capacity cmp h inserted deleted) (call : F.insert h alloc data = some (rv, h')) :
      Run F capacity cmp h'
        (if rv = 0 then inserted ++ (data.bind alloc).toList else inserted) deleted
  | delete {h h' rv freed inserted deleted} (prior : Run F capacity cmp h inserted deleted)
      (call : F.delete h = some (rv, freed, h')) :
      Run F capacity cmp h' inserted (if rv = 0 then deleted ++ freed.toList else deleted)

/-- An insertion of each of the data. -/
def insertAll (F : Functions D) (alloc : D → Option D) : HeapT D → List D → Option (HeapT D)
  | h, [] => some h
  | h, x :: data => do
      let (rv, h) ← F.insert h alloc (some x)
      if rv = 0 then insertAll F alloc h data else none

/-- `peek` and `delete` by turns until the heap is empty, and what `peek` answered. -/
def drain (F : Functions D) : Nat → HeapT D → Option (List D)
  | 0, _ => none
  | rounds + 1, h => do
      match ← F.peek h with
      | none => return []
      | some x => do
          let (_, _, h) ← F.delete h
          return x :: (← drain F rounds h)

/-- What a file of heap functions should do, for the order `r`. -/
structure Correct (F : Functions D) (capacity : Int) (cmp : D → D → Int) (r : D → D → Prop) :
    Prop where
  /-- After each call the entries are in order, and accounted for. -/
  order : ∀ {h inserted deleted}, Run F capacity cmp h inserted deleted →
    ∃ l, h.data.take h.size = l.map some ∧ l.length = h.size ∧ (h.size : Int) ≤ capacity ∧
      (∀ i, 0 < i → i < h.size → ∃ x y, getAt h.data ((i - 1) / 2) = some x ∧
        getAt h.data i = some y ∧ r x y) ∧
      (deleted ++ l).Perm inserted
  /-- An insertion stores the copy exactly if there is a datum, room and a copy. -/
  insert : ∀ {h inserted deleted}, Run F capacity cmp h inserted deleted → ∀ alloc data,
    ∃ rv h', F.insert h alloc data = some (rv, h') ∧
      (rv = 0 ↔ (h.size : Int) < capacity ∧ ∃ x ∈ data, (alloc x).isSome) ∧ (rv ≠ 0 → h' = h)
  /-- A deletion takes out one datum, a first one in the order, and what `peek` answers. -/
  delete : ∀ {h inserted deleted}, Run F capacity cmp h inserted deleted → ∀ {l},
    h.data.take h.size = l.map some →
      (l = [] ∧ F.peek h = some none ∧ F.delete h = some (-1, none, h)) ∨
      ∃ x h' l', F.peek h = some (some x) ∧ F.delete h = some (0, some x, h') ∧
        h'.data.take h'.size = l'.map some ∧ l.Perm (x :: l') ∧ ∀ y ∈ l, r x y
  /-- Inserting a list and emptying the heap again sorts it. -/
  sort : ∀ {outcomes h}, F.init capacity cmp outcomes = some h → ∀ {alloc : D → Option D} {data},
    (data.length : Int) ≤ capacity → (∀ x ∈ data, (alloc x).isSome) →
      ∃ h' sorted, insertAll F alloc h data = some h' ∧
        (∀ rounds, data.length < rounds → drain F rounds h' = some sorted) ∧
        sorted.Perm (data.filterMap alloc) ∧ sorted.Pairwise r

section Correct

variable {capacity : Int} {inserted deleted : List D} (hf : Follows wrong cmp r)

/-- The functions with the test `wrong`. -/
abbrev functionsOf (wrong : Int → Bool) : Functions D :=
  ⟨heapInit, heapInsert wrong, heapDelete wrong, heapPeek⟩

include hf

/-- **What a run leaves.** -/
theorem Run.holds (hcap : capacity < 2 ^ 30)
    (hrun : Run (functionsOf wrong) capacity cmp h inserted deleted) :
    0 ≤ capacity ∧ ∃ l, Holds r cmp capacity.toNat h l ∧ (deleted ++ l).Perm inserted := by
  induction hrun with
  | init hinit => exact ⟨heapInit_nonneg hinit, [], heapInit_holds hinit, .refl []⟩
  | @insert h h' rv inserted deleted alloc data prior call ih =>
    obtain ⟨h0, l, hh, hperm⟩ := ih
    refine ⟨h0, ?_⟩
    by_cases hok : l.length < capacity.toNat ∧ ∃ x ∈ data, (alloc x).isSome
    · obtain ⟨hroom, x, hx, hsome⟩ := hok
      obtain ⟨y, hy⟩ := Option.isSome_iff_exists.mp hsome
      obtain ⟨h₁, l', hcall, hh', hperm'⟩ := hh.insert hf hroom hy
      obtain rfl : data = some x := hx
      obtain ⟨rfl, rfl⟩ := Prod.mk.inj (Option.some.inj (hcall.symm.trans call))
      refine ⟨l', hh', ?_⟩
      rw [if_pos rfl, Option.bind_some, hy]
      calc deleted ++ l'
        _ |>.Perm (deleted ++ (y :: l)) := hperm'.append_left deleted
        _ |>.Perm (y :: (deleted ++ l)) := List.perm_middle
        _ |>.Perm (y :: inserted) := hperm.cons y
        _ |>.Perm (inserted ++ [y]) := (List.perm_append_singleton y inserted).symm
    · obtain ⟨rv', hcall, hneg⟩ := hh.insert_fails wrong hok
      obtain ⟨rfl, rfl⟩ := Prod.mk.inj (Option.some.inj (hcall.symm.trans call))
      refine ⟨l, hh, ?_⟩
      rwa [if_neg (by omega)]
  | @delete h h' rv freed inserted deleted prior call ih =>
    obtain ⟨h0, l, hh, hperm⟩ := ih
    refine ⟨h0, ?_⟩
    cases l with
    | nil =>
      have hnone := hh.delete_nil wrong
      obtain ⟨rfl, hrest⟩ := Prod.mk.inj (Option.some.inj (hnone.symm.trans call))
      obtain ⟨-, rfl⟩ := Prod.mk.inj hrest
      exact ⟨[], hh, hperm⟩
    | cons x t =>
      obtain ⟨h₁, l', hcall, hh', hperm'⟩ := hh.delete hf (by omega)
      obtain ⟨rfl, hrest⟩ := Prod.mk.inj (Option.some.inj (hcall.symm.trans call))
      obtain ⟨rfl, rfl⟩ := Prod.mk.inj hrest
      refine ⟨l', hh', ?_⟩
      rw [if_pos rfl, Option.toList_some, List.append_assoc]
      exact ((hperm'.cons x).append_left deleted).trans hperm

/-- **A heap is emptied in order.** -/
theorem Holds.drain (hn : n < 2 ^ 30) (hh : Holds r cmp n h l) :
    ∃ sorted, (∀ rounds, l.length < rounds → drain (functionsOf wrong) rounds h = some sorted) ∧
      sorted.Perm l ∧ sorted.Pairwise r := by
  induction hlen : l.length generalizing h l with
  | zero =>
    obtain rfl := List.length_eq_zero_iff.mp hlen
    refine ⟨[], fun rounds hr => ?_, .refl [], .nil⟩
    obtain ⟨rounds, rfl⟩ := Nat.exists_eq_add_of_lt hr
    have hp : heapPeek h = some none := hh.peek
    simp only [Heap.drain, Nat.zero_add, hp, Option.bind_eq_bind, Option.bind_some]
    rfl
  | succ k ih =>
    obtain ⟨x, t, rfl⟩ := List.exists_cons_of_length_eq_add_one hlen
    have hp : heapPeek h = some (some x) := hh.peek
    obtain ⟨h', l', hd, hh', hperm⟩ := hh.delete hf hn
    have hl' : l'.length = k := hperm.length_eq.trans (Nat.succ.inj hlen)
    obtain ⟨sorted, hrun, hsperm, hsorted⟩ := ih hh' hl'
    refine ⟨x :: sorted, fun rounds hr => ?_, (hsperm.trans hperm).cons x, ?_⟩
    · obtain ⟨rounds, rfl⟩ : ∃ m, rounds = m + 1 := ⟨rounds - 1, by omega⟩
      simp only [Heap.drain, hp, hd, hrun rounds (by omega), Option.bind_eq_bind, Option.bind_some]
      rfl
    · refine List.pairwise_cons.mpr ⟨fun y hy => ?_, hsorted⟩
      exact hh.ordered.head_le hf.preorder rfl y
        (List.mem_cons_of_mem x ((hsperm.trans hperm).subset hy))

/-- Data are put in one after the other. -/
theorem Holds.insertAll {alloc : D → Option D} {data : List D} (hh : Holds r cmp n h l)
    (hroom : l.length + data.length ≤ n) (hall : ∀ x ∈ data, (alloc x).isSome) :
    ∃ h' l', insertAll (functionsOf wrong) alloc h data = some h' ∧ Holds r cmp n h' l' ∧
      l'.Perm (l ++ data.filterMap alloc) := by
  induction data generalizing h l with
  | nil => exact ⟨h, l, rfl, hh, by rw [List.filterMap_nil, List.append_nil]⟩
  | cons x data ih =>
    rw [List.length_cons] at hroom
    obtain ⟨y, hy⟩ := Option.isSome_iff_exists.mp (hall x List.mem_cons_self)
    obtain ⟨h₁, l₁, hcall, hh₁, hperm₁⟩ := hh.insert hf (by omega) hy
    have hl₁ : l₁.length = l.length + 1 := hperm₁.length_eq
    obtain ⟨h', l', hrun, hh', hperm⟩ := ih hh₁ (by omega)
      (fun z hz => hall z (List.mem_cons_of_mem x hz))
    refine ⟨h', l', ?_, hh', ?_⟩
    · simp only [Heap.insertAll, hcall, Option.bind_eq_bind, Option.bind_some, if_pos]
      exact hrun
    · rw [List.filterMap_cons_some hy]
      calc l'
        _ |>.Perm (l₁ ++ data.filterMap alloc) := hperm
        _ |>.Perm (y :: l ++ data.filterMap alloc) := hperm₁.append_right _
        _ |>.Perm (l ++ y :: data.filterMap alloc) := List.perm_middle.symm

/-- **A file of heap functions is correct** for the order that its test follows. -/
theorem functionsOf_correct (hcap : capacity < 2 ^ 30) :
    Correct (functionsOf wrong) capacity cmp r where
  order hrun := by
    obtain ⟨h0, l, hh, hperm⟩ := hrun.holds hf hcap
    have hle := hh.le
    refine ⟨l, hh.take_eq, hh.size.symm, ?_, fun i hi hlt => ?_, hperm⟩
    · rw [hh.size]
      omega
    · rw [hh.size] at hlt
      have hp : parent i < l.length := Nat.lt_trans (parent_lt hi) hlt
      exact ⟨_, _, hh.getAt_eq hp, hh.getAt_eq hlt,
        hh.ordered i hi _ (List.getElem?_eq_getElem hp) _ (List.getElem?_eq_getElem hlt)⟩
  insert := by
    intro h inserted deleted hrun alloc data
    obtain ⟨h0, l, hh, -⟩ := hrun.holds hf hcap
    have hiff : ((h.size : Int) < capacity ∧ ∃ x ∈ data, (alloc x).isSome = true) ↔
        l.length < capacity.toNat ∧ ∃ x ∈ data, (alloc x).isSome = true := by
      rw [hh.size]
      exact and_congr_left fun _ => by omega
    rw [hiff]
    by_cases hok : l.length < capacity.toNat ∧ ∃ x ∈ data, (alloc x).isSome
    · obtain ⟨hroom, x, rfl, hsome⟩ := hok
      obtain ⟨y, hy⟩ := Option.isSome_iff_exists.mp hsome
      obtain ⟨h', l', hcall, -, -⟩ := hh.insert hf hroom hy
      exact ⟨0, h', hcall, iff_of_true rfl ⟨hroom, x, rfl, hsome⟩, fun hne => absurd rfl hne⟩
    · obtain ⟨rv, hcall, hneg⟩ := hh.insert_fails wrong hok
      exact ⟨rv, _, hcall, iff_of_false (by omega) hok, fun _ => rfl⟩
  delete hrun := by
    intro l hl
    obtain ⟨h0, l₀, hh, -⟩ := hrun.holds hf hcap
    obtain rfl : l₀ = l := by
      rw [hh.take_eq] at hl
      exact List.map_injective_iff.mpr (fun _ _ => Option.some.inj) hl
    cases l₀ with
    | nil => exact Or.inl ⟨rfl, hh.peek, hh.delete_nil wrong⟩
    | cons x t =>
      obtain ⟨h', l', hcall, hh', hperm⟩ := hh.delete hf (by omega)
      exact Or.inr ⟨x, h', l', hh.peek, hcall, hh'.take_eq, (hperm.cons x).symm,
        hh.ordered.head_le hf.preorder rfl⟩
  sort hinit := by
    intro alloc data hlen hall
    have hh := heapInit_holds (r := r) hinit
    obtain ⟨h₁, l₁, hins, hh₁, hperm₁⟩ := hh.insertAll hf
      (show ([] : List D).length + data.length ≤ capacity.toNat by rw [List.length_nil]; omega) hall
    obtain ⟨sorted, hdrain, hperm, hsorted⟩ := hh₁.drain hf (by omega)
    have hcount : l₁.length ≤ data.length := by
      rw [hperm₁.length_eq]
      exact List.length_filterMap_le ..
    exact ⟨h₁, sorted, hins, fun rounds hr => hdrain rounds (Nat.lt_of_le_of_lt hcount hr),
      hperm.trans hperm₁, hsorted⟩

end Correct

/-- **The order and the contents of both heaps.** -/
theorem heap_correct (c : Comparison D) {capacity : Int} (hcap : capacity < 2 ^ 30) :
    Correct minHeap capacity c.cmp (fun x y => c.cmp x y ≤ 0) ∧
      Correct maxHeap capacity c.cmp (fun x y => 0 ≤ c.cmp x y) := by
  have hmin : Follows (fun v => 0 < v) c.cmp (fun x y => c.cmp x y ≤ 0) := by
    refine ⟨⟨fun x y => ?_, fun {x y z} => c.trans x y z⟩, fun x y => ?_⟩
    · have hs := c.swap y x
      omega
    · rw [decide_eq_true_eq]
      omega
  have hmax : Follows (fun v => v < 0) c.cmp (fun x y => 0 ≤ c.cmp x y) := by
    have hle : ∀ {x y}, 0 ≤ c.cmp x y ↔ c.cmp y x ≤ 0 := by
      intro x y
      have hs := c.swap x y
      omega
    refine ⟨⟨fun x y => ?_, fun {x y z} hxy hyz => ?_⟩, fun x y => ?_⟩
    · have hs := c.swap x y
      omega
    · exact hle.mpr (c.trans z y x (hle.mp hyz) (hle.mp hxy))
    · rw [decide_eq_true_eq]
      omega
  exact ⟨functionsOf_correct hmin hcap, functionsOf_correct hmax hcap⟩

theorem heap_correct_difference :
    (∃ h, minHeap.init 5 (fun x y : Int => x - y) Outcomes.allOk = some h) ∧
      Correct minHeap 5 (fun x y : Int => x - y) (fun x y => x - y ≤ 0) ∧
      Correct maxHeap 5 (fun x y : Int => x - y) (fun x y => 0 ≤ x - y) :=
  ⟨⟨_, rfl⟩, heap_correct ⟨fun x y => x - y, by omega, by omega⟩ (by decide)⟩

end DataStructures.Heap
