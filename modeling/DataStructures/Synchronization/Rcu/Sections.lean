import DataStructures.Synchronization.Rcu.Model

/-!
# Read-side sections

`SectionEffect` says once what an action does to the slots, the counters and the reads of
the threads.  In every reachable state each thread that has a slot has it alone, and a
thread outside a section has no reads (`Slots`).
-/

namespace DataStructures.Rcu

open Lib.Runs

variable {ι P V F : Type} {s s' : State ι P V F}
  {a : Act ι P V F} {i j : ι} {t : Thread P V F} {id : Nat}

/-- The thread that takes an action. -/
def Act.thread : Act ι P V F → ι
  | .call i _ => i
  | .step i _ => i

/-- The slot that the accesses of a call to come use. -/
def Pc.slot : Pc V F → Option Nat
  | .lockAssert id | .lockAdd id | .unlockAssert id | .unlockSub id => some id
  | _ => none

variable [DecidableEq ι]

/-- What an action of thread `i` may do to slots, counters and reads. -/
inductive SectionEffect (s : State ι P V F) (i : ι) (s' : State ι P V F) : Prop
  /-- nothing -/
  | keep {t : Thread P V F} : s'.size = s.size → s'.threadsIdx = s.threadsIdx →
      s'.threadsCnt = s.threadsCnt → s'.thread = Function.update s.thread i t →
      t.slot = (s.thread i).slot → t.loads = (s.thread i).loads →
      (∀ id, t.pc.slot = some id → t.slot = some id) → SectionEffect s i s'
  /-- the thread has registered already -/
  | again {id : Nat} : s'.size = s.size → s'.threadsIdx = s.threadsIdx →
      s'.threadsCnt = s.threadsCnt → id < s.size → s.threadsIdx id = some i →
      s'.thread = Function.update s.thread i { s.thread i with slot := some id } →
      (s.thread i).pc = .idle → SectionEffect s i s'
  /-- the thread gets a new slot -/
  | register : s.size < maxThreads → s'.size = s.size + 1 →
      s'.threadsIdx = Function.update s.threadsIdx s.size (some i) →
      s'.threadsCnt = s.threadsCnt → (∀ id < s.size, s.threadsIdx id ≠ some i) →
      s'.thread = Function.update s.thread i { s.thread i with slot := some s.size } →
      (s.thread i).pc = .idle → SectionEffect s i s'
  /-- the counter of the thread changes -/
  | count {id : Nat} {c : BitVec 32} {t : Thread P V F} : s'.size = s.size →
      s'.threadsIdx = s.threadsIdx → s'.threadsCnt = Function.update s.threadsCnt id c →
      s'.thread = Function.update s.thread i t → (s.thread i).slot = some id →
      t.slot = some id → t.loads = (if 0 < c.toInt then (s.thread i).loads else []) →
      t.pc = .idle → SectionEffect s i s'
  /-- the thread reads a shared pointer in its section -/
  | load {p : P} {t : Thread P V F} : s'.size = s.size → s'.threadsIdx = s.threadsIdx →
      s'.threadsCnt = s.threadsCnt → s'.thread = Function.update s.thread i t →
      t.slot = (s.thread i).slot → s.inSection i = true →
      t.loads = (p, s.writes p, s.ptr p) :: (s.thread i).loads → t.pc = .idle →
      SectionEffect s i s'

/-- Slots are handed out one to a thread, and a thread reads only inside a section. -/
structure Slots (s : State ι P V F) : Prop where
  size_le : s.size ≤ maxThreads
  owned : ∀ i id, (s.thread i).slot = some id → id < s.size ∧ s.threadsIdx id = some i
  inj : ∀ j k, j < s.size → k < s.size → s.threadsIdx j = s.threadsIdx k → j = k
  reads : ∀ i, s.inSection i = false → (s.thread i).loads = []
  points : ∀ i id, (s.thread i).pc.slot = some id → (s.thread i).slot = some id

omit [DecidableEq ι] in
theorem slots_create {ptr : P → Pointer V} : Slots (rcuCreate ptr : State ι P V F) := by
  refine ⟨Nat.zero_le _, ?_, ?_, fun _ _ => rfl, ?_⟩
  · intro i id h
    exact nomatch h
  · intro j k hj
    exact absurd hj (Nat.not_lt_zero j)
  · intro i id h
    exact nomatch h

/-! ### What one action does -/

theorem goto_effect {pc : Pc V F}
    (hpc : ∀ id, pc.slot = some id → (s.thread i).slot = some id) :
    SectionEffect s i (s.goto i pc) :=
  .keep rfl rfl rfl rfl rfl rfl hpc

theorem rcuRegisterThread_effect (hpc : (s.thread i).pc = .idle)
    (h : rcuRegisterThread s i = some s') : SectionEffect s i s' := by
  rw [rcuRegisterThread] at h
  split at h
  · rename_i j hfind
    obtain rfl := Option.some.inj h
    have hj := List.mem_range.mp (List.mem_of_find?_eq_some hfind)
    exact .again rfl rfl rfl hj (of_decide_eq_true (List.find?_some hfind :)) rfl hpc
  · rename_i hfind
    split at h
    · rename_i hsize
      obtain rfl := Option.some.inj h
      refine .register hsize rfl rfl rfl ?_ rfl hpc
      intro id hid he
      exact List.find?_eq_none.mp hfind id (List.mem_range.mpr hid) (decide_eq_true he)
    · exact nomatch h

theorem setCnt_effect {c : BitVec 32} (hslot : (s.thread i).slot = some id)
    (h : setCnt s i id c = some s') : SectionEffect s i s' := by
  rw [setCnt] at h
  split at h
  · obtain rfl := Option.some.inj h
    exact .count rfl rfl rfl rfl hslot hslot rfl rfl
  · exact nomatch h

theorem rcuDereference_effect {p : P} (hpc : (s.thread i).pc = .idle) :
    SectionEffect s i (rcuDereference s i p) := by
  cases hin : s.inSection i with
  | true =>
    refine .load (p := p) rfl rfl rfl rfl rfl hin ?_ hpc
    rw [hin]
    rfl
  | false =>
    refine .keep rfl rfl rfl rfl rfl ?_ ?_
    · rw [hin]
      rfl
    · intro id he
      rw [hpc] at he
      exact nomatch he

theorem advance_effect {ok : Bool} (hs : Slots s)
    (h : advance s i ok (s.thread i).pc = some s') : SectionEffect s i s' := by
  have hslot := hs.points i
  have hcases := advance_cases h
  generalize (s.thread i).pc = pc at hslot hcases
  cases hcases with
  | lockAssert _ | unlockAssert _ => exact goto_effect (fun _ he => hslot _ he)
  | lockAdd h | unlockSub h => exact setCnt_effect (hslot _ rfl) h
  | scan _ | scanEnd _ | scanAgain _ | scanNext _ | noMemory | last | next _ =>
    exact goto_effect nofun
  | malloc | push _ _ | invoke _ | free _ => exact .keep rfl rfl rfl rfl rfl rfl nofun

variable [DecidableEq P]

theorem begin_effect {f : Call P V F} (hs : Slots s) (hpc : (s.thread i).pc = .idle)
    (h : begin s i f = some s') : SectionEffect s i s' := by
  cases f with
  | registerThread => exact rcuRegisterThread_effect hpc h
  | readLock | readUnlock =>
    obtain ⟨id, hslot, rfl⟩ := Option.map_eq_some_iff.mp h
    exact goto_effect (fun id' he => Option.some.inj he ▸ hslot)
  | assignPointer p new =>
    obtain rfl := Option.some.inj h
    exact .keep rfl rfl rfl (Function.update_eq_self i s.thread).symm rfl rfl (hs.points i)
  | dereference p =>
    obtain rfl := Option.some.inj h
    exact rcuDereference_effect hpc
  | exchange p new =>
    obtain rfl := Option.some.inj h
    exact .keep rfl rfl rfl rfl rfl rfl (hs.points i)
  | synchronize | call fn ptr =>
    obtain rfl := Option.some.inj h
    exact goto_effect (fun id he => nomatch he)
  | cleanup =>
    obtain ⟨it, -, rfl⟩ := rcuCleanup_eq_some h
    exact .keep rfl rfl rfl rfl rfl rfl (fun id he => nomatch he)

/-- **Every action has one effect on the sections.** -/
theorem step_section (hs : Slots s) (h : step s a = some s') : SectionEffect s a.thread s' := by
  cases a with
  | call i f => exact begin_effect hs (step_call h).1 (step_call h).2
  | step i ok => exact advance_effect hs h

/-! ### What every action keeps -/

omit [DecidableEq P] in
theorem forall_thread (Q : ι → Thread P V F → Prop)
    (h : s'.thread = Function.update s.thread i t) (hi : Q i t)
    (hj : ∀ j, j ≠ i → Q j (s.thread j)) : ∀ j, Q j (s'.thread j) := by
  rw [h]
  exact (Function.forall_update_iff s.thread (p := Q)).mpr ⟨hi, hj⟩

omit [DecidableEq ι] [DecidableEq P] in
theorem inSection_of_slot (h : (s.thread i).slot = some id) :
    s.inSection i = decide (0 < (s.threadsCnt id).toInt) := by
  rw [State.inSection, h, Option.any_some]

omit [DecidableEq ι] [DecidableEq P] in
theorem inSection_of_none (h : (s.thread i).slot = none) : s.inSection i = false := by
  rw [State.inSection, h, Option.any_none]

omit [DecidableEq ι] [DecidableEq P] in
theorem inSection_congr (hslot : (s'.thread i).slot = (s.thread i).slot)
    (hcnt : ∀ id, (s.thread i).slot = some id → s'.threadsCnt id = s.threadsCnt id) :
    s'.inSection i = s.inSection i := by
  cases h : (s.thread i).slot with
  | none => rw [inSection_of_none h, inSection_of_none (hslot.trans h)]
  | some id => rw [inSection_of_slot h, inSection_of_slot (hslot.trans h), hcnt id h]

omit [DecidableEq ι] [DecidableEq P] in
/-- A new slot for a thread that has none. -/
theorem inj_update {idx : Nat → Option ι} {n : Nat}
    (h : ∀ j k, j < n → k < n → idx j = idx k → j = k) (hnone : ∀ k < n, idx k ≠ some i) :
    ∀ j k, j < n + 1 → k < n + 1 → Function.update idx n (some i) j =
      Function.update idx n (some i) k → j = k := by
  have hne : ∀ k, k ≠ n → k < n + 1 → Function.update idx n (some i) k ≠ some i := by
    intro k hk hlt
    rw [Function.update_of_ne hk]
    exact hnone k (by omega)
  intro j k hj hk he
  obtain rfl | hjn := eq_or_ne j n
  · by_contra hkj
    exact hne k (Ne.symm hkj) hk (he.symm.trans (Function.update_self ..))
  · obtain rfl | hkn := eq_or_ne k n
    · exact absurd (he.trans (Function.update_self ..)) (hne j hjn hj)
    · rw [Function.update_of_ne hjn, Function.update_of_ne hkn] at he
      exact h j k (by omega) (by omega) he

omit [DecidableEq P] in
theorem SectionEffect.thread_eq (h : SectionEffect s i s') :
    ∃ t, s'.thread = Function.update s.thread i t := by
  cases h with
  | keep _ _ _ hth | again _ _ _ _ _ hth | register _ _ _ _ _ hth | count _ _ _ hth
  | load _ _ _ hth => exact ⟨_, hth⟩

omit [DecidableEq P] in
/-- A thread keeps the slot it has. -/
theorem SectionEffect.slot_eq (hs : Slots s) (h : SectionEffect s i s')
    (hj : (s.thread j).slot = some id) : (s'.thread j).slot = some id := by
  obtain rfl | hne := eq_or_ne j i
  · obtain ⟨hid, howner⟩ := hs.owned j id hj
    cases h with
    | keep _ _ _ hth hslot | load _ _ _ hth hslot =>
      rw [hth, Function.update_self, hslot, hj]
    | @again id' _ _ _ hid' howner' hth =>
      rw [hth, Function.update_self, hs.inj id' id hid' hid (howner'.trans howner.symm)]
    | register _ _ _ _ hnone => exact absurd howner (hnone id hid)
    | count _ _ _ hth hold hslot =>
      rw [hth, Function.update_self, hslot, ← hold, hj]
  · obtain ⟨t, hth⟩ := h.thread_eq
    rw [hth, Function.update_of_ne hne, hj]

namespace Slots

omit [DecidableEq P]

theorem next_size (hs : Slots s) (h : SectionEffect s i s') : s'.size ≤ maxThreads := by
  cases h with
  | keep hsize | again hsize | count hsize | load hsize => exact hsize ▸ hs.size_le
  | register hlt hsize => omega

theorem next_owned (hs : Slots s) (h : SectionEffect s i s') :
    ∀ j id, (s'.thread j).slot = some id → id < s'.size ∧ s'.threadsIdx id = some j := by
  cases h with
  | keep hsize hidx _ hth hslot | load hsize hidx _ hth hslot =>
    rw [hsize, hidx]
    refine forall_thread (fun j t => ∀ id, t.slot = some id → id < s.size ∧
      s.threadsIdx id = some j) hth ?_ (fun j _ => hs.owned j)
    intro id hid
    exact hs.owned i id (hslot ▸ hid)
  | again hsize hidx _ hid howner hth =>
    rw [hsize, hidx]
    refine forall_thread (fun j t => ∀ id, t.slot = some id → id < s.size ∧
      s.threadsIdx id = some j) hth ?_ (fun j _ => hs.owned j)
    intro id' he
    obtain rfl := Option.some.inj he
    exact ⟨hid, howner⟩
  | register _ hsize hidx _ _ hth =>
    rw [hsize, hidx]
    refine forall_thread (fun j t => ∀ id, t.slot = some id → id < s.size + 1 ∧
      Function.update s.threadsIdx s.size (some i) id = some j) hth ?_ ?_
    · intro id he
      obtain rfl := Option.some.inj he
      exact ⟨Nat.lt_succ_self _, Function.update_self ..⟩
    · intro j _ id hid
      obtain ⟨hlt, howner⟩ := hs.owned j id hid
      exact ⟨Nat.lt_succ_of_lt hlt, by rw [Function.update_of_ne (Nat.ne_of_lt hlt), howner]⟩
  | count hsize hidx _ hth hid hslot =>
    rw [hsize, hidx]
    refine forall_thread (fun j t => ∀ id, t.slot = some id → id < s.size ∧
      s.threadsIdx id = some j) hth ?_ (fun j _ => hs.owned j)
    intro id' he
    obtain rfl := Option.some.inj (hslot.symm.trans he)
    exact hs.owned i _ hid

theorem next_inj (hs : Slots s) (h : SectionEffect s i s') : ∀ j k, j < s'.size → k < s'.size →
    s'.threadsIdx j = s'.threadsIdx k → j = k := by
  cases h with
  | keep hsize hidx | again hsize hidx | count hsize hidx | load hsize hidx =>
    rw [hsize, hidx]
    exact hs.inj
  | register _ hsize hidx _ hnone =>
    rw [hsize, hidx]
    exact inj_update hs.inj hnone

theorem next_points (hs : Slots s) (h : SectionEffect s i s') :
    ∀ j id, (s'.thread j).pc.slot = some id → (s'.thread j).slot = some id := by
  have hidle : ∀ {t : Thread P V F}, t.pc = .idle → ∀ id, t.pc.slot = some id →
      t.slot = some id := by
    intro t hpc id he
    rw [hpc] at he
    exact nomatch he
  cases h with
  | keep _ _ _ hth _ _ hpc =>
    exact forall_thread (fun _ t => ∀ id, t.pc.slot = some id → t.slot = some id) hth hpc
      (fun j _ => hs.points j)
  | again _ _ _ _ _ hth hpc | register _ _ _ _ _ hth hpc | count _ _ _ hth _ _ _ hpc
  | load _ _ _ hth _ _ _ hpc =>
    exact forall_thread (fun _ t => ∀ id, t.pc.slot = some id → t.slot = some id) hth (hidle hpc)
      (fun j _ => hs.points j)

/-- The counter of another thread is not the one that changes. -/
theorem next_counter (hs : Slots s) (h : SectionEffect s i s') (hj : j ≠ i)
    (hid : (s.thread j).slot = some id) : s'.threadsCnt id = s.threadsCnt id := by
  cases h with
  | keep _ _ hcnt | again _ _ hcnt | register _ _ _ hcnt | load _ _ hcnt => rw [hcnt]
  | @count id' c t _ _ hcnt _ hid' =>
    have hne : id ≠ id' := by
      rintro rfl
      have howners := (hs.owned j id hid).2.symm.trans (hs.owned i id hid').2
      exact hj (Option.some.inj howners)
    rw [hcnt, Function.update_of_ne hne]

/-- What the thread that acts has read when it is in no section. -/
theorem next_reads_self (hs : Slots s) (h : SectionEffect s i s') (hin : s'.inSection i = false) :
    (s'.thread i).loads = [] := by
  -- a thread whose slot and counter stay was in no section before
  have hkeep : ∀ {t : Thread P V F}, s'.thread = Function.update s.thread i t →
      s'.threadsCnt = s.threadsCnt → t.slot = (s.thread i).slot → s.inSection i = false := by
    intro t hth hcnt hslot
    rw [← hin]
    refine (inSection_congr ?_ (fun _ _ => by rw [hcnt])).symm
    rw [hth, Function.update_self, hslot]
  cases h with
  | keep _ _ hcnt hth hslot hloads =>
    rw [hth, Function.update_self, hloads]
    exact hs.reads i (hkeep hth hcnt hslot)
  | @again id _ _ hcnt hid howner hth =>
    rw [hth, Function.update_self]
    refine hs.reads i ?_
    -- the slot is the one the thread had, if it had one
    cases hslot : (s.thread i).slot with
    | none => exact inSection_of_none hslot
    | some id' =>
      obtain ⟨hid', howner'⟩ := hs.owned i id' hslot
      obtain rfl := hs.inj id' id hid' hid (howner'.trans howner.symm)
      exact hkeep hth hcnt hslot.symm
  | register _ _ _ _ hnone hth =>
    rw [hth, Function.update_self]
    refine hs.reads i (inSection_of_none ?_)
    cases hslot : (s.thread i).slot with
    | none => rfl
    | some id => exact absurd (hs.owned i id hslot).2 (hnone id (hs.owned i id hslot).1)
  | @count id c t _ _ hcnt hth _ hslot hloads =>
    have hslot' : (s'.thread i).slot = some id := by rw [hth, Function.update_self, hslot]
    rw [inSection_of_slot hslot', hcnt, Function.update_self] at hin
    rw [hth, Function.update_self, hloads]
    exact if_neg (of_decide_eq_false hin)
  | load _ _ hcnt hth hslot hopen =>
    rw [hkeep hth hcnt hslot] at hopen
    exact Bool.noConfusion hopen

theorem next_reads (hs : Slots s) (h : SectionEffect s i s') :
    ∀ j, s'.inSection j = false → (s'.thread j).loads = [] := by
  intro j hin
  obtain rfl | hj := eq_or_ne j i
  · exact hs.next_reads_self h hin
  · obtain ⟨t, hth⟩ := h.thread_eq
    have hsame : s'.thread j = s.thread j := by rw [hth, Function.update_of_ne hj]
    rw [inSection_congr (by rw [hsame]) (fun id hid => hs.next_counter h hj hid)] at hin
    rw [hsame]
    exact hs.reads j hin

end Slots

/-- **Every action keeps the slots.** -/
theorem Slots.next (hs : Slots s) (h : step s a = some s') : Slots s' where
  size_le := hs.next_size (step_section hs h)
  owned := hs.next_owned (step_section hs h)
  inj := hs.next_inj (step_section hs h)
  reads := hs.next_reads (step_section hs h)
  points := hs.next_points (step_section hs h)

omit [DecidableEq ι] in
theorem Reachable.slots [DecidableEq ι] (h : Reachable s) : Slots s := by
  obtain ⟨ptr, hr⟩ := h
  exact Lib.Runs.Reachable.invariant (P := Slots) Slots.next slots_create hr

end DataStructures.Rcu
