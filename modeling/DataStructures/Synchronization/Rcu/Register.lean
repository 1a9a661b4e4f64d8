import DataStructures.Synchronization.Rcu.Model
import DataStructures.Lib.Refinement
import Mathlib.Data.List.Dedup

/-!
# Registration

`slotOf` is the specification of `rcu_register_thread`: a list of threads, in the order in
which they have registered; the slot of a thread is its place in the list.  `Table s ks`: the
list is what `threads_idx` holds.

The table refines the list as long as there is room.  The function does not test whether
there is: with more than `MAX_THREADS` threads it writes behind `threads_idx`, and gives a
slot that is not one of the array (`register_sound_iff`).
-/

namespace DataStructures.Rcu

open Lib Refinement

variable {ι P V F : Type} [DecidableEq ι] {s s' : State ι P V F} {i j : ι} {ks is : List ι}
  {cnt : Nat → BitVec 32}

/-- `rcu_register_thread`, with the slot it returns. -/
def register (s : State ι P V F) (i : ι) : Option (Nat × State ι P V F) := do
  let s ← rcuRegisterThread s i
  let slot ← (s.thread i).slot
  return (slot, s)

/-- The context of `rcu_create`, where the counters hold `cnt`. -/
def created (ptr : P → Pointer V) (cnt : Nat → BitVec 32) : State ι P V F :=
  { rcuCreate ptr with threadsCnt := cnt }

/-- What registration is for: the threads in the order in which they have come. -/
def slotOf (ks : List ι) (i : ι) : Nat × List ι :=
  if i ∈ ks then (ks.idxOf i, ks) else (ks.length, ks ++ [i])

/-- There is room for thread `i`. -/
def HasRoom (ks : List ι) (i : ι) : Prop := i ∈ ks ∨ ks.length < maxThreads

/-- **The table holds the threads `ks`**, and the counters hold `cnt`. -/
structure Table (cnt : Nat → BitVec 32) (s : State ι P V F) (ks : List ι) : Prop where
  nodup : ks.Nodup
  size : s.size = ks.length
  entries : ∀ k < s.size, s.threadsIdx k = ks[k]?
  counters : s.threadsCnt = cnt

/-- **Every thread has a slot of its own**: the calls of `is` have returned `slots`, and left
the state `s`. -/
structure Sound (cnt : Nat → BitVec 32) (is : List ι) (slots : List Nat) (s : State ι P V F) :
    Prop where
  /-- two calls get the same slot exactly if they are made by the same thread -/
  same : ∀ (a b : Nat) (i j : ι), is[a]? = some i → is[b]? = some j →
    (slots[a]? = slots[b]? ↔ i = j)
  /-- as many slots as threads are in use, without a gap -/
  gapless : ∀ k, k ∈ slots ↔ k < is.dedup.length
  inside : ∀ k ∈ slots, k < maxThreads
  /-- the entry of a thread is still that thread -/
  entries : ∀ (a : Nat) (i : ι), is[a]? = some i →
    ∃ k, slots[a]? = some k ∧ s.threadsIdx k = some i
  counters : s.threadsCnt = cnt

/-! ### The specification -/

theorem slotOf_snd (ks : List ι) (i : ι) :
    (slotOf ks i).2 = if i ∈ ks then ks else ks ++ [i] := by
  unfold slotOf
  split <;> rfl

theorem slotOf_fst (ks : List ι) (i : ι) : (slotOf ks i).1 = (slotOf ks i).2.idxOf i := by
  unfold slotOf
  split
  · rfl
  · rename_i hi
    rw [List.idxOf_append_of_notMem hi, List.idxOf_cons_self, Nat.add_zero]

omit [DecidableEq ι] in
theorem nodup_concat (h : ks.Nodup) (hi : i ∉ ks) : (ks ++ [i]).Nodup :=
  List.nodup_append_comm.mp (List.nodup_cons.mpr ⟨hi, h⟩)

theorem mem_slotOf {ks : List ι} {i k : ι} : k ∈ (slotOf ks i).2 ↔ k ∈ ks ∨ k = i := by
  rw [slotOf_snd]
  split
  · rename_i hi
    refine ⟨Or.inl, ?_⟩
    rintro (hk | rfl)
    · exact hk
    · exact hi
  · rw [List.mem_append, List.mem_singleton]

theorem nodup_slotOf (h : ks.Nodup) (i : ι) : (slotOf ks i).2.Nodup := by
  rw [slotOf_snd]
  split
  · exact h
  · rename_i hi
    exact nodup_concat h hi

theorem prefix_slotOf (ks : List ι) (i : ι) : ks <+: (slotOf ks i).2 := by
  rw [slotOf_snd]
  split
  · exact List.prefix_rfl
  · exact List.prefix_append ks [i]

/-- Who has registered after the calls of `is`. -/
abbrev registered (ks is : List ι) : List ι := (specCalls slotOf ks is).2

theorem mem_registered {k : ι} : ∀ {is ks : List ι}, k ∈ registered ks is ↔ k ∈ ks ∨ k ∈ is := by
  intro is
  induction is with
  | nil =>
    intro ks
    exact (or_iff_left (List.not_mem_nil)).symm
  | cons i is ih =>
    intro ks
    rw [registered, specCalls, ih, mem_slotOf, List.mem_cons, or_assoc]

theorem nodup_registered : ∀ {is ks : List ι}, ks.Nodup → (registered ks is).Nodup := by
  intro is
  induction is with
  | nil => exact fun h => h
  | cons i is ih => exact fun h => ih (nodup_slotOf h i)

/-- Who comes later is put behind. -/
theorem prefix_registered : ∀ (is ks : List ι), ks <+: registered ks is := by
  intro is
  induction is with
  | nil => exact fun ks => List.prefix_rfl
  | cons i is ih => exact fun ks => (prefix_slotOf ks i).trans (ih _)

/-- A thread keeps its place. -/
theorem idxOf_registered (is : List ι) (hj : j ∈ ks) : (registered ks is).idxOf j = ks.idxOf j := by
  obtain ⟨l, hl⟩ := prefix_registered is ks
  rw [← hl, List.idxOf_append_of_mem hj]

/-- **Every call returns the place its thread has in the end.** -/
theorem slots_eq : ∀ (is ks : List ι),
    (specCalls slotOf ks is).1 = is.map (fun i => (registered ks is).idxOf i) := by
  intro is
  induction is with
  | nil => exact fun _ => rfl
  | cons i is ih =>
    intro ks
    rw [specCalls, ih, List.map_cons, slotOf_fst]
    have hi : i ∈ (slotOf ks i).2 := mem_slotOf.mpr (.inr rfl)
    rw [← idxOf_registered is hi]
    rfl

/-- As many threads have registered as there are threads that call. -/
theorem length_registered (is : List ι) : (registered [] is).length = is.dedup.length := by
  refine ((List.perm_ext_iff_of_nodup (nodup_registered List.nodup_nil)
    (List.nodup_dedup is)).mpr ?_).length_eq
  intro k
  rw [mem_registered, List.mem_dedup]
  exact or_iff_right List.not_mem_nil

/-- **There is room for all calls exactly if there is for the threads that call.** -/
theorem allLegal_iff : ∀ {is ks : List ι}, ks.length ≤ maxThreads →
    (AllLegal slotOf HasRoom ks is ↔ (registered ks is).length ≤ maxThreads) := by
  intro is
  induction is with
  | nil =>
    intro ks h
    exact iff_of_true trivial h
  | cons i is ih =>
    intro ks h
    rw [AllLegal, registered, specCalls]
    by_cases hroom : HasRoom ks i
    · have hle : (slotOf ks i).2.length ≤ maxThreads := by
        rw [slotOf_snd]
        split
        · exact h
        · rename_i hi
          rw [List.length_append, List.length_singleton]
          exact hroom.resolve_left hi
      rw [ih hle]
      exact and_iff_right hroom
    · -- the list is full, and grows
      obtain ⟨hi, hfull⟩ := not_or.mp hroom
      refine iff_of_false (fun hc => hroom hc.1) (fun hc => ?_)
      have hle := (prefix_registered is (slotOf ks i).2).length_le
      rw [slotOf_snd, if_neg hi, List.length_append, List.length_singleton] at hle
      rw [slotOf_snd, if_neg hi] at hc
      change (registered (ks ++ [i]) is).length ≤ maxThreads at hc
      omega

/-! ### The table -/

omit [DecidableEq ι] in
theorem table_created (ptr : P → Pointer V) (cnt : Nat → BitVec 32) :
    Table cnt (created ptr cnt : State ι P V F) [] where
  nodup := List.nodup_nil
  size := rfl
  entries := fun k hk => absurd hk (Nat.not_lt_zero k)
  counters := rfl

theorem register_eq {k : Nat} (h : rcuRegisterThread s i = some s')
    (hk : (s'.thread i).slot = some k) : register s i = some (k, s') := by
  rw [register, h, Option.bind_eq_bind, Option.bind_some, hk]
  rfl

/-- The search finds the place of the thread. -/
theorem Table.find_of_mem (h : Table cnt s ks) (hi : i ∈ ks) :
    (List.range s.size).find? (fun j => s.threadsIdx j = some i) = some (ks.idxOf i) := by
  have hlt : ks.idxOf i < ks.length := List.idxOf_lt_length_of_mem hi
  rw [List.find?_range_eq_some]
  refine ⟨?_, List.mem_range.mpr (h.size ▸ hlt), ?_⟩
  · rw [decide_eq_true_iff, h.entries _ (h.size ▸ hlt)]
    exact List.getElem?_idxOf hi
  · intro j hj
    rw [Bool.not_eq_true', decide_eq_false_iff_not, h.entries j (h.size ▸ hj.trans hlt)]
    intro he
    obtain ⟨hj', rfl⟩ := List.getElem?_eq_some_iff.mp he
    rw [h.nodup.idxOf_getElem] at hj
    exact Nat.lt_irrefl j hj

theorem Table.find_of_notMem (h : Table cnt s ks) (hi : i ∉ ks) :
    (List.range s.size).find? (fun j => s.threadsIdx j = some i) = none := by
  rw [List.find?_eq_none]
  intro k hk he
  have hk' := List.mem_range.mp hk
  rw [decide_eq_true_iff, h.entries k hk'] at he
  exact hi (List.mem_of_getElem? he)

/-- **A call returns the slot of its thread.** -/
theorem Table.register (h : Table cnt s ks) (hroom : HasRoom ks i) :
    ∃ s', register s i = some ((slotOf ks i).1, s') ∧ Table cnt s' (slotOf ks i).2 := by
  by_cases hi : i ∈ ks
  · have hreg : rcuRegisterThread s i =
        some (s.put i { s.thread i with slot := some (ks.idxOf i) }) := by
      rw [rcuRegisterThread, h.find_of_mem hi]
    have hslot := congrArg Thread.slot (put_thread_self s i { s.thread i with
      slot := some (ks.idxOf i) })
    rw [slotOf, if_pos hi]
    exact ⟨_, register_eq hreg hslot, h.nodup, h.size, h.entries, h.counters⟩
  · have hlt := hroom.resolve_left hi
    have hreg : rcuRegisterThread s i = some ({ s with
        threadsIdx := Function.update s.threadsIdx s.size (some i)
        size := s.size + 1 }.put i { s.thread i with slot := some s.size }) := by
      rw [rcuRegisterThread, h.find_of_notMem hi]
      exact if_pos (h.size ▸ hlt)
    have hslot := congrArg Thread.slot (put_thread_self { s with
      threadsIdx := Function.update s.threadsIdx s.size (some i)
      size := s.size + 1 } i { s.thread i with slot := some s.size })
    rw [slotOf, if_neg hi, ← h.size]
    refine ⟨_, register_eq hreg hslot, ?_, ?_, ?_, h.counters⟩
    · exact nodup_concat h.nodup hi
    · rw [List.length_append, ← h.size]
      rfl
    · intro k hk
      rcases Nat.lt_succ_iff_lt_or_eq.mp hk with hk | rfl
      · rw [List.getElem?_append_left (h.size ▸ hk), ← h.entries k hk]
        exact Function.update_of_ne hk.ne _ _
      · rw [h.size, List.getElem?_concat_length]
        exact Function.update_self ..

/-- Without room the function writes behind the table. -/
theorem Table.register_full (h : Table cnt s ks) (hfull : ¬ HasRoom ks i) :
    Rcu.register s i = none := by
  obtain ⟨hi, hlt⟩ := not_or.mp hfull
  rw [Rcu.register, rcuRegisterThread, h.find_of_notMem hi]
  dsimp only
  rw [if_neg (by rw [h.size]; exact hlt)]
  rfl

/-- **The table refines the list of threads**, while there is room. -/
theorem slotOf_refines : Refines (register (P := P) (V := V) (F := F)) slotOf HasRoom
    (Table (ι := ι) cnt) where
  step := Table.register

/-! ### Sequences of calls -/

/-- A sequence that writes only the table is one of at most `MAX_THREADS` threads. -/
theorem length_le_of_calls {ptr : P → Pointer V} {slots : List Nat}
    (h : calls register (created ptr cnt : State ι P V F) is = some (slots, s)) :
    is.dedup.length ≤ maxThreads := by
  have hl := slotOf_refines.allLegal Table.register_full (table_created ptr cnt) h
  rw [allLegal_iff (Nat.zero_le _), length_registered] at hl
  exact hl

/-- What the slots are, where all threads are in the table. -/
theorem sound_of_table (h : Table cnt s (registered [] is))
    (hle : (registered [] is).length ≤ maxThreads) :
    Sound cnt is (specCalls slotOf [] is).1 s := by
  have hmem : ∀ i, i ∈ registered [] is ↔ i ∈ is := fun i =>
    mem_registered.trans (or_iff_right List.not_mem_nil)
  have hslot : ∀ (a : Nat) (i : ι), is[a]? = some i →
      (specCalls slotOf [] is).1[a]? = some ((registered [] is).idxOf i) := by
    intro a i ha
    rw [slots_eq, List.getElem?_map, ha, Option.map_some]
  have hgapless : ∀ k, k ∈ (specCalls slotOf [] is).1 ↔ k < (registered [] is).length := by
    intro k
    rw [slots_eq, List.mem_map]
    constructor
    · rintro ⟨i, hi, rfl⟩
      exact List.idxOf_lt_length_of_mem ((hmem i).mpr hi)
    · intro hk
      exact ⟨_, (hmem _).mp (List.getElem_mem hk), h.nodup.idxOf_getElem k hk⟩
  refine ⟨?_, ?_, ?_, ?_, h.counters⟩
  · intro a b i j ha hb
    rw [hslot a i ha, hslot b j hb, Option.some.injEq]
    exact List.idxOf_inj ((hmem i).mpr (List.mem_of_getElem? ha))
  · rw [← length_registered]
    exact hgapless
  · intro k hk
    exact Nat.lt_of_lt_of_le ((hgapless k).mp hk) hle
  · intro a i ha
    have hi := (hmem i).mpr (List.mem_of_getElem? ha)
    refine ⟨_, hslot a i ha, ?_⟩
    rw [h.entries _ (h.size ▸ List.idxOf_lt_length_of_mem hi)]
    exact List.getElem?_idxOf hi

/-- **Registration gives every thread a slot of its own exactly if at most `MAX_THREADS`
threads register**, however often, in whatever order and whatever the counters hold. -/
theorem register_sound_iff (ptr : P → Pointer V) (cnt : Nat → BitVec 32) (is : List ι) :
    (∃ slots s, calls register (created ptr cnt : State ι P V F) is = some (slots, s) ∧
      Sound cnt is slots s) ↔ is.dedup.length ≤ maxThreads := by
  constructor
  · rintro ⟨slots, s, h, -⟩
    exact length_le_of_calls h
  · intro hle
    rw [← length_registered] at hle
    obtain ⟨s, hrun, h⟩ := slotOf_refines.calls (table_created (F := F) ptr cnt)
      ((allLegal_iff (Nat.zero_le _)).mpr hle)
    exact ⟨_, s, hrun, sound_of_table h hle⟩

/-- 65 threads are too many. -/
theorem register_overflow : ¬ ∃ slots s,
    calls register (created (fun _ => none) (fun _ => 0) : State Nat Unit Unit Unit)
      (List.range 65) = some (slots, s) ∧ Sound (fun _ => 0) (List.range 65) slots s := by
  rintro ⟨slots, s, h, -⟩
  have hle := length_le_of_calls h
  rw [List.nodup_range.dedup, List.length_range] at hle
  exact absurd hle (by decide)

end DataStructures.Rcu
