import DataStructures.Lib.Progress
import DataStructures.Synchronization.Rcu.Accounts
import DataStructures.Synchronization.Rcu.Synchronize

/-!
# Everything that was deferred can be done

From a reachable state in which no thread waits for itself, the threads can finish their calls and
close their sections, and then a single call of `rcu_cleanup` invokes every callback that was
registered and has not been invoked, and leaves no node (`rcu_drains`).  The measure counts what a thread has still to do in its call
and in its sections, and the callbacks that have not been invoked (`work`).

A thread that calls `rcu_synchronize` inside a section of its own waits for itself; it never
returns, and neither does any other call of `rcu_synchronize` that begins later (`rcu_self_wait`).
-/

namespace DataStructures.Rcu

open Kslist Lib.Runs Lib.Handoff

variable {ι P V F : Type} [DecidableEq ι] [DecidableEq P] {s s' : State ι P V F} {a : Act ι P V F}
  {as : List (Act ι P V F)} {i j w : ι} {id k : ℕ}

/-- The thread is in `rcu_synchronize`. -/
def Pc.scanning (pc : Pc V F) : Bool := pc.scan.isSome

/-- A thread that is in `rcu_synchronize` and in a section of its own. -/
def WaitsForSelf (s : State ι P V F) (i : ι) : Prop :=
  (s.thread i).pc.scanning = true ∧ s.inSection i = true

omit [DecidableEq ι] [DecidableEq P] in
theorem scanning_iff {pc : Pc V F} : pc.scanning = true ↔ ∃ k, pc.scan = some k := Option.isSome_iff_exists

omit [DecidableEq ι] [DecidableEq P] in
theorem not_scanning_iff {pc : Pc V F} : pc.scanning = false ↔ pc.scan = none := Option.isSome_eq_false_iff.trans Option.isNone_iff_eq_none

omit [DecidableEq P] in
theorem setCnt_pc {c : BitVec 32} (h : setCnt s i id c = some s') : (s'.thread i).pc = .idle := by
  rw [setCnt] at h
  split at h
  · obtain rfl := Option.some.inj h
    rw [put_thread_self]
  · cases h

omit [DecidableEq P] in
theorem register_pc (h : rcuRegisterThread s i = some s') : (s'.thread i).pc = (s.thread i).pc := by
  rw [rcuRegisterThread] at h
  split at h
  · obtain rfl := Option.some.inj h
    rw [put_thread_self]
  · split at h
    · obtain rfl := Option.some.inj h
      rw [put_thread_self]
    · cases h

/-- A thread comes to scan by calling `rcu_synchronize`. -/
theorem scan_begins (h : step s a = some s') (hpc : (s.thread a.thread).pc.scan = none) :
    (s'.thread a.thread).pc.scan = none ∨
      a = .call a.thread .synchronize ∧ (s'.thread a.thread).pc = .syncSize 0 := by
  cases a with
  | step i ok =>
    rw [Act.thread] at hpc ⊢
    refine Or.inl ?_
    have hcases := advance_cases h
    generalize (s.thread i).pc = pc at hpc hcases
    cases hcases with
    | lockAdd h | unlockSub h =>
      rw [setCnt_pc h]
      rfl
    | scan | scanEnd | scanAgain | scanNext => cases hpc
    | lockAssert | unlockAssert | malloc | noMemory | push | last | next | invoke | free =>
      rw [goto_pc_self]
      rfl
  | call i f =>
    rw [Act.thread] at hpc ⊢
    obtain ⟨hidle, h⟩ := step_call h
    cases f with
    | registerThread =>
      rw [register_pc h]
      exact Or.inl hpc
    | readLock | readUnlock =>
      obtain ⟨id, -, rfl⟩ := Option.map_eq_some_iff.mp h
      rw [goto_pc_self]
      exact Or.inl rfl
    | assignPointer p new =>
      obtain rfl := Option.some.inj h
      exact Or.inl hpc
    | dereference p =>
      obtain rfl := Option.some.inj h
      refine Or.inl ?_
      rw [rcuDereference, put_thread_self]
      exact hpc
    | exchange p new =>
      obtain rfl := Option.some.inj h
      refine Or.inl ?_
      rw [exchange, put_thread_self]
      exact hpc
    | synchronize =>
      obtain rfl := Option.some.inj h
      rw [goto_pc_self]
      exact Or.inr ⟨rfl, rfl⟩
    | call fn ptr =>
      obtain rfl := Option.some.inj h
      rw [goto_pc_self]
      exact Or.inl rfl
    | cleanup =>
      obtain ⟨it, -, rfl⟩ := rcuCleanup_eq_some h
      rw [goto_pc_self]
      exact Or.inl rfl

/-! ### Waiting for oneself -/

/-- A scan that a thread makes in a section of its own has not got past its slot. -/
def Behind (s : State ι P V F) : Prop := ∀ i id, (s.thread i).slot = some id →
  0 < (s.threadsCnt id).toInt → (s.thread i).pc.scanning = true → Before i id s

theorem Behind.next (hb : Behind s) (hs : Slots s) (h : step s a = some s') : Behind s' := by
  intro i id hslot hcnt hscan
  by_cases hi : i = a.thread
  · subst hi
    cases hpc : (s.thread a.thread).pc.scan with
    | none =>
      obtain hnone | ⟨-, hzero⟩ := scan_begins h hpc
      · rw [Pc.scanning, hnone] at hscan
        exact Bool.noConfusion hscan
      · exact ⟨0, by rw [hzero]; rfl, Nat.zero_le _⟩
    | some k =>
      -- the scan changes neither the slot nor the counter
      obtain ⟨pc, hs', -⟩ := scan_step h hpc
      have hslot' : (s.thread a.thread).slot = some id := by
        rw [← hslot, hs', State.goto, put_thread_self]
      have hcnt' : 0 < (s.threadsCnt id).toInt := by
        rw [hs'] at hcnt
        exact hcnt
      have hbefore := hb _ id hslot' hcnt' (scanning_iff.mpr ⟨k, hpc⟩)
      exact hbefore.next hs (hs.owned _ id hslot').1 hcnt' h
  · have hsame := step_thread_of_ne hs h hi
    rw [hsame] at hslot hscan
    rw [hs.next_counter (step_section hs h) hi hslot] at hcnt
    obtain ⟨k, hk, hle⟩ := hb i id hslot hcnt hscan
    exact ⟨k, by rw [hsame, hk], hle⟩

theorem Reachable.behind (h : Reachable s) : Behind s := by
  obtain ⟨ptr, hr⟩ := h
  have hboth := Lib.Runs.Reachable.invariant (P := fun s : State ι P V F => Slots s ∧ Behind s)
    (fun hs h => ⟨hs.1.next h, hs.2.next hs.1 h⟩) ⟨slots_create, fun i id hslot => nomatch hslot⟩ hr
  exact hboth.2

/-- Thread `i` waits for itself and has not got past its slot. -/
structure Stuck (i : ι) (id : ℕ) (s : State ι P V F) : Prop where
  slots : Slots s
  slot : (s.thread i).slot = some id
  cnt : 0 < (s.threadsCnt id).toInt
  before : Before i id s

/-- **A thread that waits for itself goes on doing so**: only itself could close its section. -/
theorem Stuck.next (hs : Stuck i id s) (h : step s a = some s') : Stuck i id s' where
  slots := hs.slots.next h
  slot := (step_section hs.slots h).slot_eq hs.slots hs.slot
  before := hs.before.next hs.slots (hs.slots.owned i id hs.slot).1 hs.cnt h
  cnt := by
    by_cases hi : i = a.thread
    · subst hi
      obtain ⟨k, hk, -⟩ := hs.before
      obtain ⟨pc, rfl, -⟩ := scan_step h hk
      exact hs.cnt
    · rw [hs.slots.next_counter (step_section hs.slots h) hi hs.slot]
      exact hs.cnt

/-- **A thread that calls `rcu_synchronize` inside its own section never returns**, and as long as
it waits no call that begins returns. -/
theorem rcu_self_wait (hs : Reachable s) (hi : WaitsForSelf s i) (hr : run step s as = some s') :
    WaitsForSelf s' i ∧
      ∀ j, (s.thread j).pc = .syncSize 0 → (s'.thread j).pc.scanning = true := by
  obtain ⟨hscan, hin⟩ := hi
  obtain ⟨id, hslot⟩ : ∃ id, (s.thread i).slot = some id := by
    cases hslot : (s.thread i).slot with
    | none => exact absurd (hin.symm.trans (inSection_of_none hslot)) Bool.noConfusion
    | some id => exact ⟨id, rfl⟩
  have hcnt := (inSection_iff hslot).mp hin
  have hstuck : Stuck i id s := ⟨hs.slots, hslot, hcnt, hs.behind i id hslot hcnt hscan⟩
  have hstuck' : Stuck i id s' := run_invariant Stuck.next hstuck hr
  refine ⟨⟨?_, (inSection_iff hstuck'.slot).mpr hstuck'.cnt⟩, ?_⟩
  · obtain ⟨k, hk, -⟩ := hstuck'.before
    exact scanning_iff.mpr ⟨k, hk⟩
  · intro j hj
    have hstart : Before j id s := ⟨0, by rw [hj]; rfl, Nat.zero_le _⟩
    have hboth := run_invariant (P := fun s : State ι P V F => Stuck i id s ∧ Before j id s)
      (fun hs h => ⟨hs.1.next h, hs.2.next hs.1.slots (hs.1.slots.owned i id hs.1.slot).1 hs.1.cnt h⟩)
      ⟨hstuck, hstart⟩ hr
    obtain ⟨k, hk, -⟩ := hboth.2
    exact scanning_iff.mpr ⟨k, hk⟩

/-- A reader calls `rcu_synchronize`, and so does another thread. -/
theorem rcu_self_wait_two : ∃ s s' : State Bool Unit Nat Unit,
    run step (rcuCreate (fun _ => none)) [.call false .registerThread, .call false .readLock,
      .step false true, .step false true, .call false .synchronize, .call true .synchronize] = some s ∧
    run step s [.step false true, .step true true, .step true true, .step false true] = some s' ∧
    WaitsForSelf s' false ∧ (s'.thread true).pc.scanning = true := by
  refine ⟨_, _, rfl, rfl, ?_⟩
  refine (@rcu_self_wait Bool Unit Nat Unit _ _ _ _
    [.step false true, .step true true, .step true true, .step false true] false
    ⟨fun _ => none, [.call false .registerThread, .call false .readLock, .step false true,
      .step false true, .call false .synchronize, .call true .synchronize], rfl⟩ ⟨rfl, ?_⟩ rfl).imp id
    fun hblocked => hblocked true rfl
  decide +kernel

/-! ### Invariants -/

/-- A counter that has changed belongs to a thread. -/
def Counted (s : State ι P V F) : Prop := ∀ id, s.threadsCnt id ≠ 0 → ∃ i, (s.thread i).slot = some id

theorem Counted.next (hc : Counted s) (hs : Slots s) (h : step s a = some s') : Counted s' := by
  intro id hne
  have heffect := step_section hs h
  have hkeep : s.threadsCnt id ≠ 0 → ∃ i, (s'.thread i).slot = some id := by
    intro hold
    obtain ⟨i, hi⟩ := hc id hold
    exact ⟨i, heffect.slot_eq hs hi⟩
  cases heffect with
  | keep _ _ hcnt | again _ _ hcnt | register _ _ _ hcnt | load _ _ hcnt => exact hkeep (hcnt ▸ hne)
  | @count id' c t _ _ hcnt hth _ hslot =>
    obtain rfl | hid := eq_or_ne id id'
    · exact ⟨a.thread, by rw [hth, Function.update_self, hslot]⟩
    · rw [hcnt, Function.update_of_ne hid] at hne
      exact hkeep hne

/-- The scan reads the counters of slots that have been handed out. -/
def InRange (s : State ι P V F) : Prop := ∀ i k, (s.thread i).pc = .syncCnt k → k < s.size

omit [DecidableEq P] in
theorem SectionEffect.size_le (h : SectionEffect s i s') : s.size ≤ s'.size := by
  cases h with
  | keep hsize | again hsize | count hsize | load hsize => exact hsize.ge
  | register _ hsize => omega

theorem InRange.next (hr : InRange s) (hs : Slots s) (h : step s a = some s') : InRange s' := by
  intro i k hpc'
  have hsize := (step_section hs h).size_le
  by_cases hi : i = a.thread
  · subst hi
    cases hpc : (s.thread a.thread).pc.scan with
    | none =>
      obtain hnone | ⟨-, hzero⟩ := scan_begins h hpc
      · rw [hpc'] at hnone
        cases hnone
      · rw [hpc'] at hzero
        cases hzero
    | some n =>
      cases a with
      | call i f =>
        rw [Act.thread, (step_call h).1] at hpc
        cases hpc
      | step i ok =>
        have hcases := advance_cases h
        rw [Act.thread] at hpc hpc'
        generalize (s.thread i).pc = pc at hpc hcases
        cases hcases with
        | scan hlt =>
          rw [goto_pc_self] at hpc'
          obtain rfl := Pc.syncCnt.inj hpc'
          exact hlt
        | scanEnd | scanAgain | scanNext =>
          rw [goto_pc_self] at hpc'
          cases hpc'
        | lockAssert | unlockAssert | lockAdd | unlockSub | malloc | noMemory | push | last | next
        | invoke | free => cases hpc
  · rw [step_thread_of_ne hs h hi] at hpc'
    exact Nat.lt_of_lt_of_le (hr i k hpc') hsize

/-- A node that is there has a callback that is still to be invoked, or is used by one thread. -/
def Kept (s : State ι P V F) : Prop := ∀ n, s.nodes n ≠ none →
  (∃ e ∈ s.registered, e.1 = n ∧ e ∉ s.invoked) ∨ ∃ i, (s.thread i).pc.node = some n

theorem Kept.next [Fintype ι] {L : Ledger ι (Callback V F)} (hk : Kept s) (hL : Books s L)
    (h : step s a = some s') : Kept s' := by
  intro n hn
  -- a thread that does not act keeps its node, and the one that acts has none or gives it up
  have hother : ∀ t : Thread P V F, s'.thread = Function.update s.thread a.thread t →
      (s.thread a.thread).pc.node ≠ some n → (∃ i, (s.thread i).pc.node = some n) →
      ∃ i, (s'.thread i).pc.node = some n := by
    rintro t hth hnot ⟨i, hi⟩
    have hia : i ≠ a.thread := by
      rintro rfl
      exact hnot hi
    exact ⟨i, by rw [hth, Function.update_of_ne hia, hi]⟩
  cases step_memory h with
  | @quiet t hsame hth hold hpc =>
    have hnone := (Pc.quiet_iff.mp hold).2
    rw [hsame.nodes] at hn
    rw [hsame.registered, hsame.invoked]
    exact (hk n hn).imp_right (hother t hth (by rw [hnone]; exact nofun))
  | malloc hpc hs =>
    subst hs
    by_cases hnew : n = s.next
    · exact Or.inr ⟨a.thread, by rw [goto_pc_self, hnew]; rfl⟩
    · have hold : s.nodes n ≠ none := by
        intro he
        exact hn ((Function.update_of_ne hnew ..).trans he)
      exact (hk n hold).imp_right (hother _ rfl (by rw [hpc]; exact nofun))
  | @push m _ callback hpc hlinks hnode hs =>
    subst hs
    by_cases hnm : n = m
    · refine Or.inl ⟨(m, callback), List.mem_cons_self, hnm.symm, ?_⟩
      intro hinvoked
      have hdone : (m, callback) ∈ L.done := hL.done ▸ Multiset.mem_coe.mpr hinvoked
      exact hL.pushing a.thread m hpc _ (hL.balanced.mem_iff.mpr (Or.inl hdone)) rfl
    · obtain ⟨e, he, hen, hnot⟩ | hnode' := hk n hn
      · exact Or.inl ⟨e, List.mem_cons_of_mem _ he, hen, hnot⟩
      · refine Or.inr (hother _ rfl ?_ hnode')
        rw [hpc]
        exact fun he => hnm (Option.some.inj he).symm
  | detach hcall hpc hit hs =>
    subst hs
    exact (hk n hn).imp_right (hother _ rfl (by rw [hpc]; exact nofun))
  | last hpc hs | next hpc _ hs =>
    subst hs
    exact (hk n hn).imp_right (hother _ rfl (by rw [hpc]; exact nofun))
  | @invoke it m callback hpc hnode hs =>
    subst hs
    by_cases hnm : n = m
    · exact Or.inr ⟨a.thread, by rw [goto_pc_self, hnm]; rfl⟩
    · obtain ⟨e, he, hen, hnot⟩ | hnode' := hk n hn
      · refine Or.inl ⟨e, he, hen, ?_⟩
        intro hmem
        obtain rfl | hmem := List.mem_cons.mp hmem
        · exact hnm hen.symm
        · exact hnot hmem
      · exact Or.inr (hother _ rfl (by rw [hpc]; exact nofun) hnode')
  | @free it m hpc hnode hs =>
    subst hs
    have hnm : n ≠ m := by
      rintro rfl
      exact hn (Function.update_self ..)
    have hold : s.nodes n ≠ none := by
      intro he
      exact hn ((Function.update_of_ne hnm ..).trans he)
    refine (hk n hold).imp_right (hother _ rfl ?_)
    rw [hpc]
    exact fun he => hnm (Option.some.inj he).symm

/-- What every reachable state keeps. -/
structure Intact [Fintype ι] (s : State ι P V F) : Prop where
  slots : Slots s
  counted : Counted s
  inRange : InRange s
  accounted : Accounted s
  kept : Kept s

theorem Intact.next [Fintype ι] (hs : Intact s) (h : step s a = some s') : Intact s' := by
  obtain ⟨L, hL⟩ := hs.accounted
  exact ⟨hs.slots.next h, hs.counted.next hs.slots h, hs.inRange.next hs.slots h, hs.accounted.next h,
    hs.kept.next hL h⟩

theorem Reachable.intact [Fintype ι] (h : Reachable s) : Intact s := by
  obtain ⟨ptr, hr⟩ := h
  refine Lib.Runs.Reachable.invariant (P := Intact) Intact.next ?_ hr
  exact
    { slots := slots_create
      counted := fun id hne => absurd rfl hne
      inRange := fun i k hpc => nomatch hpc
      accounted := ⟨.empty, books_create⟩
      kept := fun n hn => absurd rfl hn }

/-! ### What is still to be done -/

/-- The sections that a counter says are open. -/
def depth (c : BitVec 32) : ℕ := c.toInt.toNat

/-- What a thread has still to do, where its counter is `c`: a section that is open takes three
actions, and an access in a call weighs what the rest of the call may leave to do. -/
def Pc.rank (c : BitVec 32) : Pc V F → ℕ
  | .lockAssert _ => 3 * depth (c + 1) + 2
  | .lockAdd _ => 3 * depth (c + 1) + 1
  | .unlockAssert _ => 3 * depth (c - 1) + 2
  | .unlockSub _ => 3 * depth (c - 1) + 1
  | .callMalloc _ _ => 3 * depth c + 6
  | .callPush _ => 3 * depth c + 5
  | .cleanupFree _ _ => 3 * depth c + 3
  | .cleanupNext _ _ => 3 * depth c + 2
  | .cleanupInvoke _ _ => 3 * depth c + 1
  | .idle | .syncSize _ | .syncCnt _ => 3 * depth c

/-- The counter of a thread. -/
def State.count (s : State ι P V F) (i : ι) : BitVec 32 := (s.thread i).slot.elim 0 s.threadsCnt

def State.share (s : State ι P V F) (i : ι) : ℕ := (s.thread i).pc.rank (s.count i)

/-- What all threads have still to do, but for the scans; a callback that has not been invoked
counts 4. -/
def work [Fintype ι] (s : State ι P V F) : ℕ :=
  4 * (s.registered.length - s.invoked.length) + ∑ i, s.share i

omit [DecidableEq ι] [DecidableEq P] in
theorem count_of_slot (hslot : (s.thread i).slot = some id) : s.count i = s.threadsCnt id := by
  rw [State.count, hslot, Option.elim_some]

theorem share_of_ne (hs : Slots s) (h : step s a = some s') (hj : j ≠ a.thread) :
    s'.share j = s.share j := by
  have hsame := step_thread_of_ne hs h hj
  have hcount : s'.count j = s.count j := by
    cases hslot : (s.thread j).slot with
    | none => rw [State.count, State.count, hsame, hslot, Option.elim_none, Option.elim_none]
    | some id =>
      rw [count_of_slot hslot, count_of_slot (hsame ▸ hslot)]
      exact hs.next_counter (step_section hs h) hj hslot
  rw [State.share, State.share, hsame, hcount]

/-- Only the thread that acts changes what it has to do. -/
theorem sum_share [Fintype ι] (hs : Slots s) (h : step s a = some s') :
    (∑ i, s'.share i) + s.share a.thread = (∑ i, s.share i) + s'.share a.thread := by
  have hupdate : s'.share = Function.update s.share a.thread (s'.share a.thread) :=
    Function.eq_update_iff.mpr ⟨rfl, fun j hj => share_of_ne hs h hj⟩
  have hsum := sum_update id s.share a.thread (s'.share a.thread)
  rw [← hupdate] at hsum
  exact hsum

/-- An action that leaves the callbacks alone. -/
theorem work_lt [Fintype ι] (hs : Slots s) (h : step s a = some s') (hreg : s'.registered = s.registered)
    (hinv : s'.invoked = s.invoked) (hlt : s'.share a.thread < s.share a.thread) : work s' < work s := by
  have hsum := sum_share hs h
  rw [work, work, hreg, hinv]
  omega

omit [DecidableEq ι] [DecidableEq P] in
/-- A callback in the list of a thread has not been invoked. -/
theorem Books.invoked_lt [Fintype ι] {L : Ledger ι (Callback V F)} (hL : Books s L) {e : Callback V F}
    (he : e ∈ L.taken i) : s.invoked.length < s.registered.length := by
  have hnot : e ∉ s.invoked := by
    intro hmem
    have hdone : e ∈ L.done := hL.done ▸ Multiset.mem_coe.mpr hmem
    exact hL.balanced.key_ne_of_done hdone (Or.inr ⟨i, he⟩) rfl
  have hsub : e :: s.invoked ⊆ s.registered := by
    intro d hd
    refine Multiset.mem_coe.mp (hL.registered ▸ hL.balanced.mem_iff.mpr ?_)
    obtain rfl | hd := List.mem_cons.mp hd
    · exact Or.inr (Or.inr ⟨i, he⟩)
    · exact Or.inl (hL.done ▸ Multiset.mem_coe.mpr hd)
  exact ((List.nodup_cons.mpr ⟨hnot, hL.nodup_invoked⟩).subperm hsub).length_le

omit [DecidableEq P] in
theorem share_goto (s : State ι P V F) (i : ι) (pc : Pc V F) : (s.goto i pc).share i = pc.rank (s.count i) := by
  rw [State.share, goto_pc_self, State.count, State.goto, put_thread_self]
  rfl

omit [DecidableEq P] in
/-- A thread in an access to its counter leaves the section that the counter says. -/
theorem setCnt_spec (hs : Slots s) (hslot : (s.thread i).slot = some id) (c : BitVec 32) :
    ∃ s', setCnt s i id c = some s' ∧ s'.registered = s.registered ∧ s'.invoked = s.invoked ∧
      s'.share i = 3 * depth c := by
  have hid := Nat.lt_of_lt_of_le (hs.owned i id hslot).1 hs.size_le
  refine ⟨_, if_pos hid, rfl, rfl, ?_⟩
  rw [State.share, State.count, put_thread_self]
  show 3 * depth ((s.thread i).slot.elim 0 (Function.update s.threadsCnt id c)) = 3 * depth c
  rw [hslot, Option.elim_some, Function.update_self]

/-- A thread that walks a list has less to do with every access. -/
theorem Intact.cleaning_lt [Fintype ι] (hs : Intact s) {ok : Bool} (hpc : (s.thread i).pc.cleaning = true)
    (h : step s (.step i ok) = some s') : work s' < work s := by
  have hold : s.share i = (s.thread i).pc.rank (s.count i) := rfl
  cases step_memory h with
  | quiet _ _ hquiet =>
    rw [Act.thread, Pc.quiet_iff, hpc] at hquiet
    exact Bool.noConfusion hquiet.1
  | malloc hpc' | push hpc' | detach _ hpc' =>
    rw [Act.thread] at hpc'
    rw [hpc'] at hpc
    exact Bool.noConfusion hpc
  | last hpc' hs' =>
    rw [Act.thread] at hpc' hs'
    rw [hpc'] at hold
    subst hs'
    refine work_lt hs.slots h rfl rfl ?_
    rw [Act.thread, share_goto, hold, Pc.rank, Pc.rank]
    omega
  | next hpc' _ hs' =>
    rw [Act.thread] at hpc' hs'
    rw [hpc'] at hold
    subst hs'
    refine work_lt hs.slots h rfl rfl ?_
    rw [Act.thread, share_goto, hold, Pc.rank, Pc.rank]
    omega
  | @invoke it n callback hpc' _ hs' =>
    rw [Act.thread] at hpc' hs'
    obtain ⟨L, hL⟩ := hs.accounted
    have hdet := hL.detached i
    rw [hpc'] at hold hdet
    obtain ⟨e, rest, htaken, -⟩ := hdet
    have hlt := hL.invoked_lt (i := i) (htaken ▸ List.mem_cons_self)
    subst hs'
    have hsum := sum_share hs.slots h
    rw [Act.thread, share_goto, hold, Pc.rank, Pc.rank] at hsum
    replace hsum : _ + (3 * depth (s.count i) + 1) = _ + (3 * depth (s.count i) + 3) := hsum
    rw [work, work]
    show 4 * (s.registered.length - (s.invoked.length + 1)) + _ < _
    omega
  | free hpc' _ hs' =>
    rw [Act.thread] at hpc' hs'
    rw [hpc'] at hold
    subst hs'
    refine work_lt hs.slots h rfl rfl ?_
    rw [Act.thread, share_goto, hold, Pc.rank, Pc.rank]
    show 3 * depth (s.count i) + 2 < 3 * depth (s.count i) + 3
    omega

/-- **A thread in a call, but for `rcu_synchronize`, can go on**, and has less to do then. -/
theorem Reachable.exists_step [Fintype ι] (hr : Reachable s) (hidle : (s.thread i).pc ≠ .idle)
    (hscan : (s.thread i).pc.scan = none) :
    ∃ s', step s (.step i true) = some s' ∧ work s' < work s := by
  have hs := hr.intact
  have hstep : step s (.step i true) = advance s i true (s.thread i).pc := rfl
  have hold : s.share i = (s.thread i).pc.rank (s.count i) := rfl
  have hpoints := hs.slots.points i
  obtain ⟨L, hL⟩ := hs.accounted
  cases hpc : (s.thread i).pc with
  | idle => exact absurd hpc hidle
  | syncSize k | syncCnt k =>
    rw [hpc] at hscan
    cases hscan
  | lockAssert id | unlockAssert id =>
    rw [hpc] at hstep hold hpoints
    have hslot := hpoints id rfl
    rw [advance, assertSlot, if_pos (hs.slots.owned i id hslot).1] at hstep
    refine ⟨_, hstep, work_lt hs.slots hstep rfl rfl ?_⟩
    rw [Act.thread, share_goto, hold, Pc.rank, Pc.rank]
    omega
  | lockAdd id | unlockSub id =>
    rw [hpc] at hstep hold hpoints
    have hslot := hpoints id rfl
    rw [count_of_slot hslot] at hold
    rw [advance] at hstep
    obtain ⟨s', hr, hreg, hinv, hshare⟩ := setCnt_spec hs.slots hslot _
    have hs' := hstep.trans hr
    refine ⟨s', hs', work_lt hs.slots hs' hreg hinv ?_⟩
    rw [Act.thread, hshare, hold, Pc.rank]
    omega
  | callMalloc fn ptr =>
    rw [hpc] at hstep hold
    rw [advance, rcuCallMalloc, if_pos rfl] at hstep
    refine ⟨_, hstep, work_lt hs.slots hstep rfl rfl ?_⟩
    rw [Act.thread, share_goto, hold, Pc.rank, Pc.rank]
    show 3 * depth (s.count i) + 5 < 3 * depth (s.count i) + 6
    omega
  | callPush n =>
    rw [hpc] at hstep hold
    obtain ⟨head, hhead, -⟩ := hL.queued
    obtain ⟨-, hnode, hlink⟩ := hL.node i n (by rw [hpc]; rfl)
    obtain ⟨callback, hcallback⟩ := Option.isSome_iff_exists.mp hnode
    rw [advance, rcuCallPush, kslistPushHead_eq hhead hlink (node_ne_cbs n), Option.bind_eq_bind, Option.bind_some,
      hcallback] at hstep
    have hsum := sum_share hs.slots hstep
    refine ⟨_, hstep, ?_⟩
    rw [Act.thread, share_goto, hold, Pc.rank, Pc.rank] at hsum
    rw [work, work]
    show 4 * (s.registered.length + 1 - s.invoked.length) + _ < _
    replace hsum : _ + (3 * depth (s.count i) + 5) = _ + 3 * depth (s.count i) := hsum
    omega
  | cleanupNext it tmp | cleanupInvoke it tmp | cleanupFree it tmp =>
    have hcleaning : (s.thread i).pc.cleaning = true := by rw [hpc]; rfl
    obtain ⟨s', hs'⟩ := rcu_cleanup_defined hr hcleaning true
    exact ⟨s', hs', hs.cleaning_lt hcleaning hs'⟩

/-! ### Closing the sections -/

/-- An action that brings things to an end: an access in a call, or the end of a section. -/
def Closing : Act ι P V F → Prop
  | .step _ _ => True
  | .call _ .readUnlock => True
  | .call _ _ => False

/-- Nobody is in a section, or in a call other than `rcu_synchronize`. -/
def Closed (s : State ι P V F) : Prop :=
  ∀ i, ((s.thread i).pc = .idle ∨ (s.thread i).pc.scanning = true) ∧ s.inSection i = false

/-- No thread comes to wait for itself, unless it calls `rcu_synchronize`. -/
theorem waits_next (hs : Slots s) (h : step s a = some s') (hscan : (s.thread a.thread).pc.scan = none)
    (ha : a ≠ .call a.thread .synchronize) (hw : ∀ i, ¬ WaitsForSelf s i) : ∀ i, ¬ WaitsForSelf s' i := by
  rintro i ⟨hi, hin⟩
  by_cases hia : i = a.thread
  · subst hia
    obtain hnone | ⟨hcall, -⟩ := scan_begins h hscan
    · rw [Pc.scanning, hnone] at hi
      exact Bool.noConfusion hi
    · exact ha hcall
  · have hsame := step_thread_of_ne hs h hia
    rw [hsame] at hi
    rw [inSection_congr (by rw [hsame]) (fun id hid => hs.next_counter (step_section hs h) hia hid)] at hin
    exact hw i ⟨hi, hin⟩

omit [DecidableEq ι] [DecidableEq P] in
theorem exists_slot (hin : s.inSection i = true) :
    ∃ id, (s.thread i).slot = some id ∧ 0 < (s.threadsCnt id).toInt := by
  cases hslot : (s.thread i).slot with
  | none => exact absurd (hin.symm.trans (inSection_of_none hslot)) Bool.noConfusion
  | some id => exact ⟨id, rfl, (inSection_iff hslot).mp hin⟩

theorem depth_sub_one {c : BitVec 32} (h : 0 < c.toInt) : depth (c - 1) + 1 = depth c := by
  have hlt := BitVec.toInt_lt (x := c)
  have hsub : (c - 1).toInt = c.toInt - 1 := by
    have hone : (1 : BitVec 32).toInt = 1 := rfl
    rw [BitVec.toInt_sub, hone]
    refine Int.bmod_eq_of_le ?_ ?_ <;> omega
  rw [depth, depth, hsub]
  omega

/-- **The calls and the sections come to an end**, but for `rcu_synchronize`. -/
theorem Reachable.closes [Fintype ι] (hr : Reachable s) (hw : ∀ i, ¬ WaitsForSelf s i) :
    CanReach step Closing (fun s => Reachable s ∧ Closed s) s := by
  have hstage : CanReach step Closing
      (fun s => (Reachable s ∧ ∀ i, ¬ WaitsForSelf s i) ∧ Closed s) s :=
    canReach_of_measure work ?_ ⟨hr, hw⟩
  · obtain ⟨as, s', has, hrun, ⟨hr', -⟩, hc⟩ := hstage
    exact ⟨as, s', has, hrun, hr', hc⟩
  · rintro s ⟨hr, hw⟩ hopen
    have hnext : ∀ {a : Act ι P V F} {s' : State ι P V F}, Closing a → step s a = some s' →
        (s.thread a.thread).pc.scan = none → a ≠ .call a.thread .synchronize → work s' < work s →
        ∃ a s', Closing a ∧ step s a = some s' ∧ (Reachable s' ∧ ∀ i, ¬ WaitsForSelf s' i) ∧
          work s' < work s := by
      intro a s' hclosing h hscan ha hlt
      have hw' := waits_next hr.slots h hscan ha hw
      obtain ⟨ptr, hreach⟩ := hr
      exact ⟨a, s', hclosing, h, ⟨⟨ptr, hreach.tail h⟩, hw'⟩, hlt⟩
    rw [Closed] at hopen
    push Not at hopen
    obtain ⟨i, hi⟩ := hopen
    by_cases hidle : (s.thread i).pc = .idle
    · -- an idle thread has a section to close
      have hin : s.inSection i = true := by
        rw [← Bool.not_eq_false]
        exact hi (Or.inl hidle)
      obtain ⟨id, hslot, hcnt⟩ := exists_slot hin
      have hstep : step s (.call i .readUnlock) = some (s.goto i (.unlockAssert id)) := by
        rw [step, hidle]
        show (s.thread i).slot.map _ = _
        rw [hslot]
        rfl
      refine hnext (a := .call i .readUnlock) trivial hstep (by rw [Act.thread, hidle]; rfl) (by simp) ?_
      refine work_lt hr.slots hstep rfl rfl ?_
      rw [Act.thread, share_goto, State.share, hidle, Pc.rank, Pc.rank, count_of_slot hslot]
      have hdepth := depth_sub_one hcnt
      omega
    · have hscan : (s.thread i).pc.scan = none := by
        rw [← not_scanning_iff, Bool.eq_false_iff]
        intro hscan
        have hin := hi (Or.inr hscan)
        rw [Ne, Bool.not_eq_false] at hin
        exact hw i ⟨hscan, hin⟩
      obtain ⟨s', hs', hlt⟩ := hr.exists_step hidle hscan
      exact hnext (a := .step i true) trivial hs' hscan (by simp) hlt

/-! ### Ending the scans -/

/-- What a scan has still to read, where there are `size` slots. -/
def Pc.left (size : ℕ) : Pc V F → ℕ
  | .syncSize k => 2 * (size - k) + 1
  | .syncCnt k => 2 * (size - k)
  | _ => 0

omit [DecidableEq P] in
theorem inSection_goto (s : State ι P V F) (i j : ι) (pc : Pc V F) :
    (s.goto i pc).inSection j = s.inSection j := by
  refine inSection_congr ?_ (fun _ _ => rfl)
  obtain rfl | hji := eq_or_ne j i
  · rw [State.goto, put_thread_self]
  · rw [State.goto, put_thread_of_ne _ _ hji]

omit [DecidableEq P] in
theorem Closed.goto (hc : Closed s) {pc : Pc V F} (hpc : pc = .idle ∨ pc.scanning = true) :
    Closed (s.goto i pc) := by
  intro j
  rw [inSection_goto]
  refine ⟨?_, (hc j).2⟩
  obtain rfl | hji := eq_or_ne j i
  · rw [goto_pc_self]
    exact hpc
  · rw [State.goto, put_thread_of_ne _ _ hji]
    exact (hc j).1

/-- **Where no section is open a scan goes on**, and does not begin again. -/
theorem Closed.scan_step [Fintype ι] (hc : Closed s) (hr : Reachable s)
    (hscan : (s.thread i).pc.scanning = true) :
    ∃ pc, step s (.step i true) = some (s.goto i pc) ∧ (pc = .idle ∨ pc.scanning = true) ∧
      pc.left s.size < (s.thread i).pc.left s.size := by
  have hs := hr.intact
  have hstep : step s (.step i true) = advance s i true (s.thread i).pc := rfl
  cases hpc : (s.thread i).pc with
  | syncSize k =>
    rw [hpc, advance, rcuSynchronizeSize] at hstep
    by_cases hk : k < s.size
    · refine ⟨_, hstep.trans (if_pos hk), Or.inr rfl, ?_⟩
      rw [Pc.left, Pc.left]
      omega
    · exact ⟨_, hstep.trans (if_neg hk), Or.inl rfl, Nat.succ_pos _⟩
  | syncCnt k =>
    have hk := hs.inRange i k hpc
    have hcnt : ¬ 0 < (s.threadsCnt k).toInt := by
      intro hpos
      have hne : s.threadsCnt k ≠ 0 := by
        intro he
        rw [he] at hpos
        exact absurd hpos (by decide)
      obtain ⟨j, hj⟩ := hs.counted k hne
      exact Bool.noConfusion ((hc j).2.symm.trans ((inSection_iff hj).mpr hpos))
    rw [hpc, advance, rcuSynchronizeCnt, if_pos (Nat.lt_of_lt_of_le hk hs.slots.size_le),
      if_neg hcnt] at hstep
    refine ⟨_, hstep, Or.inr rfl, ?_⟩
    rw [Pc.left, Pc.left]
    omega
  | idle | lockAssert | lockAdd | unlockAssert | unlockSub | callMalloc | callPush | cleanupNext
  | cleanupInvoke | cleanupFree =>
    rw [hpc] at hscan
    exact Bool.noConfusion hscan

/-- Nobody is in a section or in a call. -/
def AtRest (s : State ι P V F) : Prop := ∀ i, (s.thread i).pc = .idle ∧ s.inSection i = false

theorem Closed.rests [Fintype ι] (hc : Closed s) (hr : Reachable s) :
    CanReach step Closing (fun s => Reachable s ∧ AtRest s) s := by
  have hstage : CanReach step Closing (fun s => (Reachable s ∧ Closed s) ∧ AtRest s) s :=
    canReach_of_measure (fun s => ∑ i, (s.thread i).pc.left s.size) ?_ ⟨hr, hc⟩
  · obtain ⟨as, s', has, hrun, ⟨hr', -⟩, hrest⟩ := hstage
    exact ⟨as, s', has, hrun, hr', hrest⟩
  · rintro s ⟨hr, hc⟩ hbusy
    rw [AtRest] at hbusy
    push Not at hbusy
    obtain ⟨i, hi⟩ := hbusy
    have hidle : (s.thread i).pc ≠ .idle := fun he => hi he (hc i).2
    obtain ⟨pc, hstep, hpc, hlt⟩ := hc.scan_step hr ((hc i).1.resolve_left hidle)
    obtain ⟨ptr, hreach⟩ := hr
    refine ⟨.step i true, _, trivial, hstep, ⟨⟨ptr, hreach.tail hstep⟩, hc.goto hpc⟩, ?_⟩
    have hsum := sum_update_lt (fun t : Thread P V F => t.pc.left s.size) s.thread i
      { s.thread i with pc := pc } hlt
    exact hsum

/-! ### The last cleanup -/

/-- An access of thread `w` in the call it is in. -/
def AccessOf (w : ι) : Act ι P V F → Prop
  | .step i _ => i = w
  | .call _ _ => False

/-- Nothing is queued, nobody is in a section, and only thread `w` may be in a call, which is then
`rcu_cleanup`. -/
structure Emptying (w : ι) (s : State ι P V F) : Prop where
  reachable : Reachable s
  threads : ∀ i, ((s.thread i).pc = .idle ∨ i = w ∧ (s.thread i).pc.cleaning = true) ∧
    s.inSection i = false
  queue : s.links .cbs = some none

theorem AtRest.cleanup [Fintype ι] (h : AtRest s) (hr : Reachable s) (w : ι) :
    ∃ s', step s (.call w .cleanup) = some s' ∧ Emptying w s' := by
  obtain ⟨L, hL⟩ := hr.accounted
  obtain ⟨head, hhead, -⟩ := hL.queued
  have hget : kslistGetHead s.links .cbs = some head := hhead
  have hinit : kslistHeadInit s.links .cbs = some (Function.update s.links .cbs (some none)) := by
    rw [kslistHeadInit, setNext, if_pos (by rw [hhead]; rfl)]
  have hstep : step s (.call w .cleanup) = some
      ({ s with links := Function.update s.links .cbs (some none) }.goto w (.cleanupNext head head)) := by
    rw [step, (h w).1]
    show rcuCleanup s w = _
    rw [rcuCleanup, hget, Option.bind_eq_bind, Option.bind_some, hinit]
    rfl
  have hempty : Function.update s.links .cbs (some none) .cbs = some none := Function.update_self ..
  obtain ⟨ptr, hreach⟩ := hr
  refine ⟨_, hstep, ⟨ptr, hreach.tail hstep⟩, ?_, hempty⟩
  intro i
  rw [inSection_goto]
  refine ⟨?_, (h i).2⟩
  obtain rfl | hi := eq_or_ne i w
  · rw [goto_pc_self]
    exact Or.inr ⟨rfl, rfl⟩
  · rw [State.goto, put_thread_of_ne _ _ hi]
    exact Or.inl (h i).1

/-- An access of the cleanup. -/
theorem Emptying.next (h : Emptying w s) {ok : Bool} (hpc : (s.thread w).pc.cleaning = true)
    (hs : step s (.step w ok) = some s') : Emptying w s' := by
  obtain ⟨ptr, hreach⟩ := h.reachable
  have hr' : Reachable s' := ⟨ptr, hreach.tail hs⟩
  have hafter : ∃ (u : State ι P V F) (pc : Pc V F), s' = u.goto w pc ∧ u.thread = s.thread ∧
      u.threadsCnt = s.threadsCnt ∧ u.links .cbs = s.links .cbs ∧
      (pc = .idle ∨ pc.cleaning = true) := by
    cases step_memory hs with
    | quiet _ _ hquiet =>
      rw [Act.thread, Pc.quiet_iff, hpc] at hquiet
      exact Bool.noConfusion hquiet.1
    | malloc hpc' | push hpc' | detach _ hpc' =>
      rw [Act.thread] at hpc'
      rw [hpc'] at hpc
      exact Bool.noConfusion hpc
    | last _ hs' => exact ⟨_, _, hs', rfl, rfl, rfl, Or.inl rfl⟩
    | next _ _ hs' => exact ⟨_, _, hs', rfl, rfl, rfl, Or.inr rfl⟩
    | invoke _ _ hs' => exact ⟨_, _, hs', rfl, rfl, rfl, Or.inr rfl⟩
    | @free _ n _ _ hs' =>
      have hcbs : Function.update s.links (.node n) none .cbs = s.links .cbs :=
        Function.update_of_ne (cbs_ne_node n) ..
      exact ⟨_, _, hs', rfl, rfl, hcbs, Or.inr rfl⟩
  obtain ⟨u, pc, rfl, hth, hcnt, hcbs, hpc'⟩ := hafter
  refine ⟨hr', ?_, hcbs.trans h.queue⟩
  intro j
  have hin : u.inSection j = s.inSection j := by
    refine inSection_congr (by rw [hth]) (fun id _ => by rw [hcnt])
  rw [inSection_goto, hin]
  refine ⟨?_, (h.threads j).2⟩
  obtain rfl | hj := eq_or_ne j w
  · rw [goto_pc_self]
    exact hpc'.imp_right (And.intro rfl)
  · rw [State.goto, put_thread_of_ne _ _ hj, hth]
    exact (h.threads j).1

/-- Nobody is in a section or in a call, every callback that was registered has been invoked, and no
node is left. -/
structure Drained (s : State ι P V F) : Prop where
  rest : AtRest s
  invoked : s.invoked.Perm s.registered
  nodes : ∀ n, s.nodes n = none

theorem Emptying.drained [Fintype ι] (h : Emptying w s) (hidle : ∀ i, (s.thread i).pc = .idle) : Drained s := by
  have hs := h.reachable.intact
  obtain ⟨L, hL⟩ := hs.accounted
  have hqueue : L.queue = [] := by
    obtain ⟨head, hhead, hlist⟩ := hL.queued
    obtain rfl := Option.some.inj (h.queue.symm.trans hhead)
    cases hq : L.queue with
    | nil => rfl
    | cons e cs =>
      rw [hq] at hlist
      cases hlist.1
  have htaken : ∀ i, L.taken i = [] := fun i => (hL.detached i).eq_nil (by rw [hidle i]; rfl)
  have hperm : s.invoked.Perm s.registered := by
    have hplaces := hL.balanced.places
    simp only [hqueue, htaken, Multiset.coe_nil, Finset.sum_const_zero, add_zero] at hplaces
    rw [hL.registered, hL.done] at hplaces
    exact Multiset.coe_eq_coe.mp hplaces.symm
  refine ⟨fun i => ⟨hidle i, (h.threads i).2⟩, hperm, ?_⟩
  intro n
  by_contra hn
  obtain ⟨e, he, -, hnot⟩ | ⟨i, hi⟩ := hs.kept n hn
  · exact hnot (hperm.mem_iff.mpr he)
  · rw [hidle i] at hi
    cases hi

theorem Emptying.ends [Fintype ι] (h : Emptying w s) : CanReach step (AccessOf w) Drained s := by
  have hstage : CanReach step (AccessOf w) (fun s => Emptying w s ∧ ∀ i, (s.thread i).pc = .idle) s :=
    canReach_of_measure work ?_ h
  · obtain ⟨as, s', has, hrun, he, hidle⟩ := hstage
    exact ⟨as, s', has, hrun, he.drained hidle⟩
  · intro s h hbusy
    push Not at hbusy
    obtain ⟨i, hi⟩ := hbusy
    obtain ⟨rfl, hpc⟩ := (h.threads i).1.resolve_left hi
    obtain ⟨s', hs'⟩ := rcu_cleanup_defined h.reachable hpc true
    exact ⟨.step i true, s', rfl, hs', h.next hpc hs', h.reachable.intact.cleaning_lt hpc hs'⟩

/-- **Everything that was deferred can be done, with one cleanup.**  From every reachable state in which no
thread waits for itself, the threads can finish their calls and close their sections; when thread `w` then
calls `rcu_cleanup`, its accesses alone lead to a state in which every callback that was registered has been
invoked and no node is left. -/
theorem rcu_drains [Fintype ι] (hr : Reachable s) (hw : ∀ i, ¬ WaitsForSelf s i) (w : ι) :
    CanReach step Closing (fun t => AtRest t ∧ ∃ u, step t (.call w .cleanup) = some u ∧
      CanReach step (AccessOf w) Drained u) s := by
  refine (hr.closes hw).trans ?_
  rintro t ⟨hr, hc⟩
  obtain ⟨as, t', has, hrun, hr', hrest⟩ := hc.rests hr
  obtain ⟨u, hu, he⟩ := hrest.cleanup hr' w
  exact ⟨as, t', has, hrun, hrest, u, hu, he.ends⟩

/-- A writer waits for a reader, and a callback has been registered. -/
theorem rcu_drains_waiting : ∃ s : State Bool Unit Nat Unit,
    run step (rcuCreate (fun _ => none)) [.call false .registerThread, .call false .readLock,
      .step false true, .step false true, .call true (.call () (some 7)), .step true true,
      .step true true, .call true .synchronize] = some s ∧
    CanReach step Closing (fun t => AtRest t ∧ ∃ u, step t (.call true .cleanup) = some u ∧
      CanReach step (AccessOf true) Drained u) s := by
  refine ⟨_, rfl, rcu_drains ⟨fun _ => none, [.call false .registerThread, .call false .readLock,
    .step false true, .step false true, .call true (.call () (some 7)), .step true true,
    .step true true, .call true .synchronize], rfl⟩ ?_ true⟩
  rintro i ⟨hscan, hin⟩
  cases i with
  | false => exact Bool.noConfusion hscan
  | true => exact Bool.noConfusion hin

end DataStructures.Rcu
