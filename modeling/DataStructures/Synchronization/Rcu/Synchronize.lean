import DataStructures.Synchronization.Rcu.Sections

/-!
# `rcu_synchronize` is a grace period

`rcu_synchronize` looks at the counters one at a time and begins again at the first reader
it finds.  While a reader stays in its section the scan does not get past the slot of the
reader (`Before`), so a call does not return before every section that was open when it
began has been closed.
-/

namespace DataStructures.Rcu

open Lib.Runs

variable {ι P V F : Type} {s s' s₁ s₂ s₃ : State ι P V F} {a : Act ι P V F}
  {as : List (Act ι P V F)} {i w : ι} {id k : Nat} {p : P} {v : Pointer V} {ok : Bool}

/-- The next slot that `rcu_synchronize` looks at. -/
def Pc.scan : Pc V F → Option Nat
  | .syncSize k | .syncCnt k => some k
  | _ => none

/-- Thread `w` is in `rcu_synchronize` and has not got past slot `id`. -/
def Before (w : ι) (id : Nat) (s : State ι P V F) : Prop :=
  ∃ k, (s.thread w).pc.scan = some k ∧ k ≤ id

variable [DecidableEq ι]

/-! ### What one action does to a scan, a slot and a read -/

/-- A read is one of the section before, or it has just been made. -/
theorem SectionEffect.mem_loads (h : SectionEffect s i s') {j : ι}
    (hj : (p, k, v) ∈ (s'.thread j).loads) :
    (p, k, v) ∈ (s.thread j).loads ∨ k = s.writes p ∧ v = s.ptr p := by
  obtain rfl | hne := eq_or_ne j i
  · cases h with
    | keep _ _ _ hth _ hloads =>
      rw [hth, Function.update_self, hloads] at hj
      exact Or.inl hj
    | again _ _ _ _ _ hth | register _ _ _ _ _ hth =>
      rw [hth, Function.update_self] at hj
      exact Or.inl hj
    | count _ _ _ hth _ _ hloads =>
      rw [hth, Function.update_self, hloads] at hj
      split at hj
      · exact Or.inl hj
      · exact absurd hj List.not_mem_nil
    | load _ _ _ hth _ _ hloads =>
      rw [hth, Function.update_self, hloads] at hj
      obtain he | hj := List.mem_cons.mp hj
      · obtain ⟨rfl, rfl, rfl⟩ := Prod.mk.injEq .. ▸ he
        exact Or.inr ⟨rfl, rfl⟩
      · exact Or.inl hj
  · obtain ⟨t, hth⟩ := h.thread_eq
    rw [hth, Function.update_of_ne hne] at hj
    exact Or.inl hj

theorem advance_shared {pc : Pc V F} (h : advance s i ok pc = some s') :
    s'.ptr = s.ptr ∧ s'.writes = s.writes := by
  cases advance_cases h with
  | lockAdd h | unlockSub h =>
    rw [setCnt] at h
    split at h
    · obtain rfl := Option.some.inj h
      exact ⟨rfl, rfl⟩
    · cases h
  | lockAssert | unlockAssert | scan | scanEnd | scanAgain | scanNext | malloc | noMemory | push
  | last | next | invoke | free => exact ⟨rfl, rfl⟩

variable [DecidableEq P]

/-- Only `rcu_assign_pointer` and the exchange write a shared pointer. -/
theorem step_shared (h : step s a = some s') :
    s'.ptr = s.ptr ∧ s'.writes = s.writes ∨
      ∃ p new, (a = .call a.thread (.assignPointer p new) ∨
        a = .call a.thread (.exchange p new)) ∧
        s'.ptr = Function.update s.ptr p new ∧
        s'.writes = Function.update s.writes p (s.writes p + 1) := by
  cases a with
  | step i ok => exact Or.inl (advance_shared h)
  | call i f =>
    replace h := (step_call h).2
    cases f with
    | registerThread =>
      rw [begin, rcuRegisterThread] at h
      split at h
      · obtain rfl := Option.some.inj h
        exact Or.inl ⟨rfl, rfl⟩
      · split at h
        · obtain rfl := Option.some.inj h
          exact Or.inl ⟨rfl, rfl⟩
        · cases h
    | readLock | readUnlock =>
      obtain ⟨id, -, rfl⟩ := Option.map_eq_some_iff.mp h
      exact Or.inl ⟨rfl, rfl⟩
    | assignPointer p new =>
      obtain rfl := Option.some.inj h
      exact Or.inr ⟨p, new, Or.inl rfl, rfl, rfl⟩
    | exchange p new =>
      obtain rfl := Option.some.inj h
      exact Or.inr ⟨p, new, Or.inr rfl, rfl, rfl⟩
    | dereference p =>
      obtain rfl := Option.some.inj h
      exact Or.inl ⟨rfl, rfl⟩
    | synchronize | call fn ptr =>
      obtain rfl := Option.some.inj h
      exact Or.inl ⟨rfl, rfl⟩
    | cleanup =>
      obtain ⟨it, -, rfl⟩ := rcuCleanup_eq_some h
      exact Or.inl ⟨rfl, rfl⟩

theorem writes_le (h : step s a = some s') (p : P) : s.writes p ≤ s'.writes p := by
  obtain ⟨-, hw⟩ | ⟨q, new, -, -, hw⟩ := step_shared h
  · rw [hw]
  · rw [hw]
    obtain rfl | hne := eq_or_ne p q
    · rw [Function.update_self]
      exact Nat.le_succ _
    · rw [Function.update_of_ne hne]

theorem step_thread_of_ne (hs : Slots s) (h : step s a = some s') (hi : i ≠ a.thread) :
    s'.thread i = s.thread i := by
  obtain ⟨t, hth⟩ := (step_section hs h).thread_eq
  rw [hth, Function.update_of_ne hi]

/-- **One access of `rcu_synchronize`**: the loop ends behind the last slot, it begins
again, it goes on in the same round, or it passes a slot without a reader. -/
theorem scan_step (h : step s a = some s') (hk : (s.thread a.thread).pc.scan = some k) :
    ∃ pc, s' = s.goto a.thread pc ∧ (pc = .idle ∧ s.size ≤ k ∨ pc.scan = some 0 ∨
      pc.scan = some k ∨ ¬ 0 < (s.threadsCnt k).toInt ∧ pc.scan = some (k + 1)) := by
  cases a with
  | call i f =>
    rw [Act.thread, (step_call h).1] at hk
    cases hk
  | step i ok =>
    have hcases := advance_cases h
    rw [Act.thread] at hk ⊢
    generalize (s.thread i).pc = pc at hk hcases
    cases hcases with
    | scan _ =>
      obtain rfl := Option.some.inj hk
      exact ⟨_, rfl, Or.inr (Or.inr (Or.inl rfl))⟩
    | scanEnd hend =>
      obtain rfl := Option.some.inj hk
      exact ⟨_, rfl, Or.inl ⟨rfl, hend⟩⟩
    | scanAgain _ =>
      obtain rfl := Option.some.inj hk
      exact ⟨_, rfl, Or.inr (Or.inl rfl)⟩
    | scanNext hfree =>
      obtain rfl := Option.some.inj hk
      exact ⟨_, rfl, Or.inr (Or.inr (Or.inr ⟨hfree, rfl⟩))⟩
    | lockAssert | unlockAssert | lockAdd | unlockSub | malloc | noMemory | push | last | next
    | invoke | free => cases hk

/-! ### A scan and a reader -/

omit [DecidableEq ι] [DecidableEq P] in
theorem inSection_iff (hid : (s.thread i).slot = some id) :
    s.inSection i = true ↔ 0 < (s.threadsCnt id).toInt := by
  rw [inSection_of_slot hid, decide_eq_true_iff]

/-- **A scan does not get past a reader.** -/
theorem Before.next (hs : Slots s) (hid : id < s.size) (hcnt : 0 < (s.threadsCnt id).toInt)
    (hb : Before w id s) (h : step s a = some s') : Before w id s' := by
  obtain ⟨k, hk, hle⟩ := hb
  by_cases hw : w = a.thread
  · subst hw
    obtain ⟨pc, rfl, ⟨-, hsize⟩ | hpc | hpc | ⟨hfree, hpc⟩⟩ := scan_step h hk
    · omega
    · exact ⟨0, by rw [goto_pc_self, hpc], Nat.zero_le _⟩
    · exact ⟨k, by rw [goto_pc_self, hpc], hle⟩
    · refine ⟨k + 1, by rw [goto_pc_self, hpc], ?_⟩
      have hne : k ≠ id := by
        rintro rfl
        exact hfree hcnt
      omega
  · exact ⟨k, by rw [step_thread_of_ne hs h hw, hk], hle⟩

/-- A call that has not got past a slot that is in use does not return. -/
theorem Before.not_idle (hs : Slots s) (hid : id < s.size) (hcnt : 0 < (s.threadsCnt id).toInt)
    (hb : Before w id s) (h : step s a = some s') : (s'.thread w).pc ≠ .idle := by
  obtain ⟨k, hk, -⟩ := hb.next hs hid hcnt h
  intro hpc
  rw [hpc] at hk
  exact nomatch hk

theorem synchronize_before (h : step s (.call w .synchronize) = some s₁) : Before w id s₁ := by
  obtain rfl := Option.some.inj (step_call h).2
  exact ⟨0, by rw [goto_pc_self]; rfl, Nat.zero_le _⟩

/-! ### The grace period -/

/-- What `rcu_synchronize` relies on in a reader that has slot `id`. -/
structure Waits (w i : ι) (id : Nat) (s : State ι P V F) : Prop where
  slots : Slots s
  slot : (s.thread i).slot = some id
  before : Before w id s

omit [DecidableEq ι] [DecidableEq P] in
theorem Waits.use (h : Waits w i id s) (hin : s.inSection i = true) :
    id < s.size ∧ 0 < (s.threadsCnt id).toInt :=
  ⟨(h.slots.owned i id h.slot).1, (inSection_iff h.slot).mp hin⟩

theorem Waits.next (hin : s.inSection i = true) (h : Waits w i id s) (ha : step s a = some s') :
    Waits w i id s' where
  slots := h.slots.next ha
  slot := (step_section h.slots ha).slot_eq h.slots h.slot
  before := h.before.next h.slots (h.use hin).1 (h.use hin).2 ha

/-- The reads of thread `i` have been made after `n p` writes of `p`. -/
structure ReadsSince (n : P → Nat) (i : ι) (s : State ι P V F) : Prop where
  slots : Slots s
  writes : ∀ p, n p ≤ s.writes p
  loads : ∀ p k v, (p, k, v) ∈ (s.thread i).loads → n p ≤ k

omit [DecidableEq ι] [DecidableEq P] in
theorem readsSince_of_not_inSection {n : P → Nat} (hs : Slots s) (hw : ∀ p, n p ≤ s.writes p)
    (hin : s.inSection i = false) : ReadsSince n i s := by
  refine ⟨hs, hw, ?_⟩
  intro p k v hm
  rw [hs.reads i hin] at hm
  exact absurd hm List.not_mem_nil

theorem ReadsSince.next {n : P → Nat} (h : ReadsSince n i s) (ha : step s a = some s') :
    ReadsSince n i s' where
  slots := h.slots.next ha
  writes p := (h.writes p).trans (writes_le ha p)
  loads p k v hm := by
    obtain hold | ⟨rfl, -⟩ := (step_section h.slots ha).mem_loads hm
    · exact h.loads p k v hold
    · exact h.writes p

/-- A section that was open when `rcu_synchronize` was called is closed before the call
returns. -/
theorem synchronize_closes (hs : Slots s) (hcall : step s (.call w .synchronize) = some s₁)
    (hr : run step s₁ as = some s₂) (hret : step s₂ a = some s₃)
    (hidle : (s₃.thread w).pc = .idle) (hin : s.inSection i = true) :
    ∃ bs cs t, as = bs ++ cs ∧ run step s₁ bs = some t ∧ t.inSection i = false := by
  obtain halong | ⟨bs, cs, t, has, ht, hout⟩ :=
    along_or_exists step (fun t => t.inSection i = true) s₁ as
  · exfalso
    obtain ⟨id, hid⟩ : ∃ id, (s.thread i).slot = some id := by
      cases hslot : (s.thread i).slot with
      | none => exact absurd (hin.symm.trans (inSection_of_none hslot)) Bool.noConfusion
      | some id => exact ⟨id, rfl⟩
    have hstart : Waits w i id s₁ :=
      ⟨hs.next hcall, (step_section hs hcall).slot_eq hs hid, synchronize_before hcall⟩
    obtain ⟨hopen, hwait⟩ := (halong.and_of_step (fun h _ hw ha => hw.next h ha) hstart).last hr
    exact hwait.before.not_idle hwait.slots (hwait.use hopen).1 (hwait.use hopen).2 hret hidle
  · exact ⟨bs, cs, t, has, ht, Bool.eq_false_iff.mpr hout⟩

/-- **`rcu_synchronize` is a grace period.**  Every section that was open when the call
began has been closed at some moment of the call, and what a reader has read in a section
it is in when the call returns it has read after every write made before the call. -/
theorem rcu_synchronize_grace_period (hs : Reachable s)
    (hcall : step s (.call w .synchronize) = some s₁)
    (hwait : Along step (fun t => (t.thread w).pc ≠ .idle) s₁ as)
    (hr : run step s₁ as = some s₂) (hret : step s₂ a = some s₃)
    (hidle : (s₃.thread w).pc = .idle) :
    (∀ i, s.inSection i = true →
      ∃ bs cs t, as = bs ++ cs ∧ run step s₁ bs = some t ∧ t.inSection i = false) ∧
    ∀ i p k v, (p, k, v) ∈ (s₃.thread i).loads → s.writes p ≤ k := by
  have hslots := hs.slots
  have hcloses : ∀ i, s.inSection i = true →
      ∃ bs cs t, as = bs ++ cs ∧ run step s₁ bs = some t ∧ t.inSection i = false :=
    fun i => synchronize_closes hslots hcall hr hret hidle
  refine ⟨hcloses, ?_⟩
  intro i
  obtain ⟨bs, cs, t, rfl, ht, hsince⟩ :
      ∃ bs cs t, as = bs ++ cs ∧ run step s₁ bs = some t ∧ ReadsSince s.writes i t := by
    cases hin : s.inSection i with
    | true =>
      obtain ⟨bs, cs, t, has, ht, hout⟩ := hcloses i hin
      have hslots' : Slots t := run_invariant Slots.next (hslots.next hcall) ht
      have hwrites : ∀ p, s.writes p ≤ t.writes p := by
        intro p
        refine (writes_le hcall p).trans ?_
        exact run_invariant (P := fun u => s₁.writes p ≤ u.writes p)
          (fun hu hb => hu.trans (writes_le hb p)) (Nat.le_refl _) ht
      exact ⟨bs, cs, t, has, ht, readsSince_of_not_inSection hslots' hwrites hout⟩
    | false =>
      have hstart := readsSince_of_not_inSection hslots (fun p => Nat.le_refl (s.writes p)) hin
      exact ⟨[], as, s₁, rfl, rfl, hstart.next hcall⟩
  obtain ⟨t', ht', hcs⟩ := run_append_eq hr
  obtain rfl := Option.some.inj (ht.symm.trans ht')
  exact ((run_invariant ReadsSince.next hsince hcs).next hret).loads

/-- A reader is in a section when the writer calls, and the writer begins its scan again. -/
theorem rcu_synchronize_grace_period_restart :
    ∃ s s₁ s₂ s₃ : State Bool Unit Nat Unit,
      run step (rcuCreate (fun _ => some 0)) [.call false .registerThread, .call false .readLock,
        .step false true, .step false true, .call false (.dereference ()),
        .call true (.assignPointer () (some 1))] = some s ∧
      step s (.call true .synchronize) = some s₁ ∧
      run step s₁ [.step true true, .step true true, .call false .readUnlock, .step false true,
        .step false true, .step true true, .step true true] = some s₂ ∧
      step s₂ (.step true true) = some s₃ ∧
      (∀ i, s.inSection i = true → ∃ bs cs t, [.step true true, .step true true,
        .call false .readUnlock, .step false true, .step false true, .step true true,
        .step true true] = bs ++ cs ∧ run step s₁ bs = some t ∧ t.inSection i = false) ∧
      ∀ i p k v, (p, k, v) ∈ (s₃.thread i).loads → s.writes p ≤ k := by
  refine ⟨_, _, _, _, rfl, rfl, rfl, rfl, ?_⟩
  refine rcu_synchronize_grace_period (w := true) (a := .step true true)
    ⟨fun _ => some 0, [.call false .registerThread, .call false .readLock, .step false true,
      .step false true, .call false (.dereference ()), .call true (.assignPointer () (some 1))],
      rfl⟩ rfl ?_ rfl rfl rfl
  refine .cons nofun rfl (.cons nofun rfl (.cons nofun rfl (.cons nofun rfl ?_)))
  exact .cons nofun rfl (.cons nofun rfl (.cons nofun rfl nofun))

end DataStructures.Rcu
