import DataStructures.Synchronization.Rwlock.Model

/-!
# Mutual exclusion of the read-write lock

`Effect` says once what an action does to the thread that takes it and to the two
counters.  `Invariant` accounts for the counters by sums over all threads: `cnt` is the
number of read acquisitions less the number of write holders, `writers` the number of
threads that have announced themselves.
-/

namespace DataStructures.Rwlock

open Lib.Runs

/-- The thread counts in `writers`: it has made its increment and not its decrement. -/
def Pc.announced : Pc → Bool
  | .writeLock .cas | .writeLock .subWriters => true
  | .writeTrylock .loadWriters | .writeTrylock .cas | .writeTrylock (.subWriters _) => true
  | _ => false

/-- The thread is in a read function and has found no announced writer. -/
def Pc.passed : Pc → Bool
  | .readLock .loadCnt | .readLock (.cas _) => true
  | .readTrylock .loadCnt | .readTrylock (.cas _) => true
  | _ => false

/-- What a thread knows at its point: a reader read a nonnegative value, and what an
unlock releases is held. -/
def Thread.Local (t : Thread) : Prop :=
  match t.pc with
  | .readLock (.cas c) | .readTrylock (.cas c) => 0 ≤ c.toInt
  | .readUnlock => 0 < t.reads
  | .writeUnlock => t.writes = true
  | _ => True

/-- What an action may do to the counters and to the thread `t` that takes it. -/
inductive Effect (cnt writers : BitVec 32) (t : Thread) :
    BitVec 32 → BitVec 32 → Thread → Prop
  /-- only the point changes -/
  | keep {t' : Thread} : t'.reads = t.reads → t'.writes = t.writes →
      t'.pc.announced = t.pc.announced → t'.Local →
      (t'.pc.passed = true → t.pc.passed = true ∨ writers = 0) →
      Effect cnt writers t cnt writers t'
  /-- a read acquisition -/
  | acquireRead {pc : Pc} {ret : Option Int} : t.pc.passed = true → t.pc.announced = false →
      0 ≤ cnt.toInt → cnt ≠ BitVec.intMax 32 → pc = .idle →
      Effect cnt writers t (cnt + 1) writers { t with pc := pc, reads := t.reads + 1, ret := ret }
  /-- a read release -/
  | releaseRead : t.pc = .readUnlock →
      Effect cnt writers t (cnt - 1) writers { t with pc := .idle, reads := t.reads - 1 }
  /-- an announcement -/
  | announce {pc : Pc} : t.pc.announced = false → pc.announced = true → pc.passed = false →
      Thread.Local { t with pc := pc } →
      Effect cnt writers t cnt (writers + 1) { t with pc := pc }
  /-- the end of an announcement -/
  | retract {ret : Option Int} : t.pc.announced = true →
      Effect cnt writers t cnt (writers - 1) { t with pc := .idle, ret := ret }
  /-- a write acquisition -/
  | acquireWrite {pc : Pc} : t.pc.announced = true → pc.announced = true → pc.passed = false →
      Thread.Local { t with pc := pc, writes := true } → cnt = 0 →
      Effect cnt writers t (-1) writers { t with pc := pc, writes := true }
  /-- a write release -/
  | releaseWrite : t.pc = .writeUnlock →
      Effect cnt writers t 0 writers { t with pc := .idle, writes := false }

variable {ι : Type} [DecidableEq ι] {s s' : State ι} {a : Act ι} {i j : ι} {t : Thread}
  {cnt writers : BitVec 32}

/-- The thread that takes an action. -/
def Act.thread : Act ι → ι
  | .call i _ => i
  | .step i _ => i

/-! ### What one action does -/

section Put

@[simp] theorem put_cnt : (s.put i t).cnt = s.cnt := rfl
@[simp] theorem put_writers : (s.put i t).writers = s.writers := rfl
@[simp] theorem put_thread_self : (s.put i t).thread i = t := Function.update_self ..
@[simp] theorem put_put {t' : Thread} : (s.put i t).put i t' = s.put i t' := by
  rw [State.put, State.put, Function.update_idem]
  rfl

theorem put_thread_of_ne (h : j ≠ i) : (s.put i t).thread j = s.thread j :=
  Function.update_of_ne h ..

end Put

/-- The action `a` of thread `i` has an effect from `s` to `s'`. -/
def Effects (s : State ι) (i : ι) (s' : State ι) : Prop :=
  ∃ t, s'.thread = Function.update s.thread i t ∧
    Effect s.cnt s.writers (s.thread i) s'.cnt s'.writers t

theorem effects_put (h : Effect s.cnt s.writers (s.thread i) cnt writers t) :
    Effects s i ({ s with cnt := cnt, writers := writers }.put i t) := ⟨t, rfl, h⟩

theorem effects_same (h : (s.thread i).Local) : Effects s i s :=
  ⟨s.thread i, (Function.update_eq_self i s.thread).symm, .keep rfl rfl rfl h Or.inl⟩

/-- A reader's compare-exchange acquires or starts over. -/
theorem readCas_effects {spurious : Bool} {c : BitVec 32} {retry : Pc}
    {success : State ι → State ι} (h : readCas s i spurious c retry success = some s')
    (hp : (s.thread i).pc.passed = true) (ha : (s.thread i).pc.announced = false)
    (hl : 0 ≤ c.toInt) (hretry : retry.announced = false)
    (hlocal : Thread.Local { s.thread i with pc := retry })
    (hsuccess : ∀ s : State ι, ∃ ret,
      success s = s.put i { s.thread i with pc := .idle, ret := ret }) : Effects s i s' := by
  rw [readCas] at h
  split at h
  · exact absurd h (by simp)
  · rename_i hmax
    split at h
    · rename_i hcas
      obtain ⟨ret, hs⟩ := hsuccess ({ s with cnt := c + 1 }.acquireRead i)
      obtain rfl := Option.some.inj h
      obtain ⟨hc, -⟩ := hcas
      subst hc
      rw [hs, State.acquireRead, put_put, put_thread_self]
      exact effects_put (.acquireRead hp ha hl hmax rfl)
    · obtain rfl := Option.some.inj h
      exact effects_put (.keep rfl rfl (hretry.trans ha.symm) hlocal (fun _ => Or.inl hp))

theorem rwlockReadLock_effects {spurious : Bool} {p : ReadPc} (hl : (s.thread i).Local)
    (hpc : (s.thread i).pc = .readLock p) (h : rwlockReadLock s i spurious p = some s') :
    Effects s i s' := by
  cases p with
  | loadWriters =>
    rw [rwlockReadLock] at h
    split at h
    · obtain rfl := Option.some.inj h
      exact effects_same hl
    · rename_i hw
      obtain rfl := Option.some.inj h
      exact effects_put (.keep rfl rfl (by rw [hpc]; rfl) trivial
        (fun _ => Or.inr (not_not.mp hw)))
  | loadCnt =>
    rw [rwlockReadLock] at h
    split at h
    · obtain rfl := Option.some.inj h
      exact effects_same hl
    · rename_i hc
      obtain rfl := Option.some.inj h
      exact effects_put (.keep rfl rfl (by rw [hpc]; rfl) (Int.not_lt.mp hc)
        (fun _ => Or.inl (by rw [hpc]; rfl)))
  | cas c =>
    rw [Thread.Local, hpc] at hl
    rw [rwlockReadLock] at h
    exact readCas_effects h (by rw [hpc]; rfl) (by rw [hpc]; rfl) hl rfl trivial
      (fun s => ⟨(s.thread i).ret, rfl⟩)

theorem rwlockReadTrylock_effects {spurious : Bool} {p : ReadPc} (hl : (s.thread i).Local)
    (hpc : (s.thread i).pc = .readTrylock p)
    (h : rwlockReadTrylock s i spurious p = some s') : Effects s i s' := by
  cases p with
  | loadWriters =>
    rw [rwlockReadTrylock] at h
    split at h
    · obtain rfl := Option.some.inj h
      exact effects_put (.keep rfl rfl (by rw [hpc]; rfl) trivial (fun h => Bool.noConfusion h))
    · rename_i hw
      obtain rfl := Option.some.inj h
      exact effects_put (.keep rfl rfl (by rw [hpc]; rfl) trivial
        (fun _ => Or.inr (not_not.mp hw)))
  | loadCnt =>
    rw [rwlockReadTrylock] at h
    split at h
    · obtain rfl := Option.some.inj h
      exact effects_put (.keep rfl rfl (by rw [hpc]; rfl) trivial (fun h => Bool.noConfusion h))
    · rename_i hc
      obtain rfl := Option.some.inj h
      exact effects_put (.keep rfl rfl (by rw [hpc]; rfl) (Int.not_lt.mp hc)
        (fun _ => Or.inl (by rw [hpc]; rfl)))
  | cas c =>
    rw [Thread.Local, hpc] at hl
    rw [rwlockReadTrylock] at h
    exact readCas_effects h (by rw [hpc]; rfl) (by rw [hpc]; rfl) hl rfl trivial
      (fun s => ⟨some 0, rfl⟩)

theorem rwlockWriteLock_effects {spurious : Bool} {p : WritePc} (hl : (s.thread i).Local)
    (hpc : (s.thread i).pc = .writeLock p) (h : rwlockWriteLock s i spurious p = some s') :
    Effects s i s' := by
  cases p with
  | addWriters =>
    obtain rfl := Option.some.inj h
    exact effects_put (.announce (by rw [hpc]; rfl) rfl rfl trivial)
  | cas =>
    rw [rwlockWriteLock] at h
    split at h
    · rename_i hc
      obtain rfl := Option.some.inj h
      rw [State.goto, State.setWrites, put_put, put_thread_self]
      exact effects_put (.acquireWrite (by rw [hpc]; rfl) rfl rfl trivial hc.1)
    · obtain rfl := Option.some.inj h
      exact effects_same hl
  | subWriters =>
    obtain rfl := Option.some.inj h
    exact effects_put (.retract (by rw [hpc]; rfl))

theorem rwlockWriteTrylock_effects {p : WriteTryPc}
    (hpc : (s.thread i).pc = .writeTrylock p) (h : rwlockWriteTrylock s i p = some s') :
    Effects s i s' := by
  cases p with
  | addWriters =>
    obtain rfl := Option.some.inj h
    exact effects_put (.announce (by rw [hpc]; rfl) rfl rfl trivial)
  | loadWriters =>
    rw [rwlockWriteTrylock] at h
    split at h
    all_goals
      obtain rfl := Option.some.inj h
      exact effects_put (.keep rfl rfl (by rw [hpc]; rfl) trivial (fun h => Bool.noConfusion h))
  | cas =>
    rw [rwlockWriteTrylock] at h
    split at h
    · rename_i hc
      obtain rfl := Option.some.inj h
      rw [State.goto, State.setWrites, put_put, put_thread_self]
      exact effects_put (.acquireWrite (by rw [hpc]; rfl) rfl rfl trivial hc)
    · obtain rfl := Option.some.inj h
      exact effects_put (.keep rfl rfl (by rw [hpc]; rfl) trivial (fun h => Bool.noConfusion h))
  | subWriters ret =>
    obtain rfl := Option.some.inj h
    exact effects_put (.retract (by rw [hpc]; rfl))

/-- The first access of a function is one of a thread that knows what it may. -/
theorem Call.entry_local {f : Call} (h : f.allowed t = true) :
    Thread.Local { t with pc := f.entry } := by
  cases f with
  | readLock | readTrylock | writeLock | writeTrylock => exact trivial
  | readUnlock => exact (decide_eq_true_iff.mp h : 0 < t.reads)
  | writeUnlock => exact h

/-- **Every action is one effect.** -/
theorem step_effects (hl : ∀ i, (s.thread i).Local) (h : step s a = some s') :
    Effects s a.thread s' := by
  cases a with
  | call i f =>
    rw [step] at h
    split at h
    · rename_i hc
      obtain rfl := Option.some.inj h
      refine effects_put (.keep rfl rfl ?_ (f.entry_local hc.2) ?_)
      · show f.entry.announced = (s.thread i).pc.announced
        rw [hc.1]
        cases f <;> rfl
      · intro hp
        cases f <;> exact Bool.noConfusion hp
    · exact absurd h (by simp)
  | step i spurious =>
    rw [step] at h
    split at h
    · exact absurd h (by simp)
    · exact rwlockReadLock_effects (hl i) ‹_› h
    · exact rwlockReadTrylock_effects (hl i) ‹_› h
    · rename_i hpc
      obtain rfl := Option.some.inj h
      rw [State.done, State.goto, State.releaseRead, put_put, put_thread_self]
      exact effects_put (.releaseRead hpc)
    · exact rwlockWriteLock_effects (hl i) ‹_› h
    · exact rwlockWriteTrylock_effects ‹_› h
    · rename_i hpc
      obtain rfl := Option.some.inj h
      rw [State.done, State.goto, State.setWrites, put_put, put_thread_self]
      exact effects_put (.releaseWrite hpc)

/-! ### The counters -/

theorem ofInt_add_one (n : ℤ) : BitVec.ofInt 32 n + 1 = BitVec.ofInt 32 (n + 1) :=
  (BitVec.ofInt_add n 1).symm

theorem ofInt_sub_one (n : ℤ) : BitVec.ofInt 32 n - 1 = BitVec.ofInt 32 (n - 1) := by
  rw [sub_eq_add_neg n 1, BitVec.ofInt_add, BitVec.sub_eq_add_neg]
  rfl

section Invariant

variable [Fintype ι]

/-- The read acquisitions not released. -/
def readers (s : State ι) : ℕ := ∑ i, (s.thread i).reads

/-- The threads that have the write lock. -/
def holders (s : State ι) : ℕ := ∑ i, (s.thread i).writes.toNat

/-- The threads that count in `writers`. -/
def announced (s : State ι) : ℕ := ∑ i, (s.thread i).pc.announced.toNat

/-- The counters stand for what the threads hold and announce, and a write holder is
alone. -/
structure Invariant (s : State ι) : Prop where
  cnt : s.cnt = BitVec.ofInt 32 ((readers s : ℤ) - holders s)
  writers : s.writers = BitVec.ofNat 32 (announced s)
  alone : holders s = 0 ∨ holders s = 1 ∧ readers s = 0
  bound : readers s < 2 ^ 31
  points : ∀ i, (s.thread i).Local

omit [DecidableEq ι] in
theorem Invariant.toInt_cnt (h : Invariant s) : s.cnt.toInt = (readers s : ℤ) - holders s := by
  have hb := h.bound
  rw [h.cnt, BitVec.toInt_ofInt_eq_self (by decide)]
  · obtain h0 | ⟨h1, hr⟩ := h.alone <;> omega
  · obtain h0 | ⟨h1, hr⟩ := h.alone <;> omega

omit [DecidableEq ι] in
theorem Invariant.holders_eq_zero (h : Invariant s) (hc : 0 ≤ s.cnt.toInt) : holders s = 0 := by
  rw [h.toInt_cnt] at hc
  obtain h0 | ⟨h1, hr⟩ := h.alone
  · exact h0
  · omega

omit [DecidableEq ι] in
theorem invariant_create : Invariant (rwlockCreate : State ι) := by
  have hr : readers (rwlockCreate : State ι) = 0 := Finset.sum_const_zero
  have hw : holders (rwlockCreate : State ι) = 0 := Finset.sum_const_zero
  have ha : announced (rwlockCreate : State ι) = 0 := Finset.sum_const_zero
  refine ⟨?_, ?_, Or.inl hw, ?_, fun i => trivial⟩
  · rw [hr, hw]
    rfl
  · rw [ha]
    rfl
  · rw [hr]
    decide

omit [DecidableEq ι] [Fintype ι] in
theorem Effect.points {cnt' writers' : BitVec 32} {t' : Thread}
    (h : Effect cnt writers t cnt' writers' t') : t'.Local := by
  cases h with
  | keep _ _ _ hl _ => exact hl
  | acquireRead _ _ _ _ hpc =>
    subst hpc
    exact trivial
  | releaseRead => exact trivial
  | announce _ _ _ hl => exact hl
  | retract => exact trivial
  | acquireWrite _ _ _ hl => exact hl
  | releaseWrite => exact trivial

/-- The value `cnt` stands for what the threads hold, and a write holder is alone. -/
def Counted (cnt : BitVec 32) (s : State ι) : Prop :=
  cnt = BitVec.ofInt 32 ((readers s : ℤ) - holders s) ∧
    (holders s = 0 ∨ holders s = 1 ∧ readers s = 0) ∧ readers s < 2 ^ 31

section Counts

omit [DecidableEq ι]

/-- Nobody acquires or releases. -/
theorem Invariant.counted_same (h : Invariant s) (hr : readers s' = readers s)
    (hw : holders s' = holders s) : Counted s.cnt s' := by
  rw [Counted, hr, hw]
  exact ⟨h.cnt, h.alone, h.bound⟩

/-- A read acquisition finds no write holder, and room for one more reader. -/
theorem Invariant.counted_acquireRead (h : Invariant s) (hnonneg : 0 ≤ s.cnt.toInt)
    (hmax : s.cnt ≠ BitVec.intMax 32) (hr : readers s' = readers s + 1)
    (hw : holders s' = holders s) : Counted (s.cnt + 1) s' := by
  have h0 := h.holders_eq_zero hnonneg
  have hbound := h.bound
  have hroom : readers s ≠ 2 ^ 31 - 1 := by
    intro he
    apply hmax
    rw [h.cnt, h0, he]
    rfl
  refine ⟨?_, Or.inl (hw.trans h0), by omega⟩
  rw [hr, hw, h.cnt, h0, ofInt_add_one]
  congr 1

/-- A read release was the release of a reader, so nobody writes. -/
theorem Invariant.counted_releaseRead (h : Invariant s) (hr : readers s' + 1 = readers s)
    (hw : holders s' = holders s) : Counted (s.cnt - 1) s' := by
  have hbound := h.bound
  have h0 : holders s = 0 := h.alone.resolve_right (fun h1 => by omega)
  refine ⟨?_, Or.inl (hw.trans h0), by omega⟩
  rw [hw, h.cnt, ofInt_sub_one]
  congr 1
  omega

/-- A write acquisition finds nobody, and is then the one holder. -/
theorem Invariant.counted_acquireWrite {n : ℕ} (h : Invariant s) (hzero : s.cnt = 0)
    (hr : readers s' = readers s) (hn : n ≤ holders s) (hw : holders s' + n = holders s + 1) :
    Counted (-1) s' := by
  have hcnt : (0 : ℤ) = (readers s : ℤ) - holders s := by
    rw [← h.toInt_cnt, hzero]
    rfl
  have h0 := h.holders_eq_zero (hzero ▸ Int.le_refl 0)
  have hr : readers s' = 0 := by omega
  have hw : holders s' = 1 := by omega
  refine ⟨?_, Or.inr ⟨hw, hr⟩, by omega⟩
  rw [hr, hw]
  rfl

/-- A write release leaves nobody. -/
theorem Invariant.counted_releaseWrite (h : Invariant s) (hr : readers s' = readers s)
    (hw : holders s' + 1 = holders s) : Counted 0 s' := by
  have halone := h.alone
  have hr : readers s' = 0 := by omega
  have hw : holders s' = 0 := by omega
  refine ⟨?_, Or.inl hw, by omega⟩
  rw [hr, hw]
  rfl

end Counts

section Step

variable (ht : s'.thread = Function.update s.thread i t)

include ht

theorem readers_step : readers s' + (s.thread i).reads = readers s + t.reads := by
  rw [readers, ht]
  exact sum_update Thread.reads s.thread i t

theorem holders_step :
    holders s' + (s.thread i).writes.toNat = holders s + t.writes.toNat := by
  rw [holders, ht]
  exact sum_update (fun t => t.writes.toNat) s.thread i t

theorem announced_step :
    announced s' + (s.thread i).pc.announced.toNat = announced s + t.pc.announced.toNat := by
  rw [announced, ht]
  exact sum_update (fun t => t.pc.announced.toNat) s.thread i t

omit [Fintype ι] in
theorem Effect.points_all (he : Effect s.cnt s.writers (s.thread i) cnt writers t)
    (hpoints : ∀ j, (s.thread j).Local) : ∀ j, (s'.thread j).Local := by
  rw [ht]
  exact (Function.forall_update_iff s.thread (p := fun _ t => t.Local)).mpr
    ⟨he.points, fun j _ => hpoints j⟩

/-- `writers` goes with the announcements. -/
theorem Invariant.next_writers (h : Invariant s)
    (he : Effect s.cnt s.writers (s.thread i) cnt writers t) :
    writers = BitVec.ofNat 32 (announced s') := by
  have hn := announced_step ht
  cases he with
  | keep _ _ hann _ _ =>
    rw [hann] at hn
    rw [h.writers, Nat.add_right_cancel hn]
  | acquireRead hp hann _ _ hpc =>
    subst hpc
    rw [hann] at hn
    have hn : announced s' = announced s := hn
    rw [h.writers, hn]
  | releaseRead hpc | releaseWrite hpc =>
    rw [hpc] at hn
    have hn : announced s' = announced s := hn
    rw [h.writers, hn]
  | announce hann hann' _ _ =>
    simp only [hann, hann'] at hn
    have hn : announced s' = announced s + 1 := hn
    rw [h.writers, hn, BitVec.ofNat_add]
    rfl
  | retract hann =>
    simp only [hann] at hn
    have hn : announced s' + 1 = announced s := hn
    rw [h.writers, ← hn, BitVec.ofNat_add]
    exact BitVec.add_sub_cancel _ _
  | acquireWrite hann hann' _ _ _ =>
    simp only [hann, hann'] at hn
    rw [h.writers, Nat.add_right_cancel hn]

/-- `cnt` goes with what the threads hold. -/
theorem Invariant.next_cnt (h : Invariant s)
    (he : Effect s.cnt s.writers (s.thread i) cnt writers t) : Counted cnt s' := by
  have hr := readers_step ht
  have hw := holders_step ht
  cases he with
  | keep hreads hwrites _ _ _ =>
    rw [hreads] at hr
    rw [hwrites] at hw
    exact h.counted_same (Nat.add_right_cancel hr) (Nat.add_right_cancel hw)
  | announce _ _ _ _ | retract _ =>
    exact h.counted_same (Nat.add_right_cancel hr) (Nat.add_right_cancel hw)
  | acquireRead hp _ hnonneg hmax hpc =>
    have hr : readers s' = readers s + 1 := by
      simp only at hr
      omega
    exact h.counted_acquireRead hnonneg hmax hr (Nat.add_right_cancel hw)
  | releaseRead hpc =>
    have hpos := h.points i
    rw [Thread.Local, hpc] at hpos
    have hr : readers s' + 1 = readers s := by
      simp only at hr
      omega
    exact h.counted_releaseRead hr (Nat.add_right_cancel hw)
  | acquireWrite _ _ _ _ hzero =>
    have hle : (s.thread i).writes.toNat ≤ holders s := le_sum (fun t => t.writes.toNat) s.thread i
    exact h.counted_acquireWrite hzero (Nat.add_right_cancel hr) hle hw
  | releaseWrite hpc =>
    have hwrites := h.points i
    rw [Thread.Local, hpc] at hwrites
    have hwrites : (s.thread i).writes = true := hwrites
    rw [hwrites] at hw
    exact h.counted_releaseWrite (Nat.add_right_cancel hr) hw

end Step

/-- **An action keeps the invariant.** -/
theorem Invariant.next (h : Invariant s) (ha : step s a = some s') : Invariant s' := by
  obtain ⟨t, ht, he⟩ := step_effects h.points ha
  obtain ⟨hcnt, halone, hbound⟩ := h.next_cnt ht he
  exact ⟨hcnt, h.next_writers ht he, halone, hbound, he.points_all ht h.points⟩

theorem Reachable.invariant (h : Reachable s) : Invariant s :=
  Lib.Runs.Reachable.invariant (P := Invariant) Invariant.next invariant_create h

/-! ### Mutual exclusion -/

omit [DecidableEq ι] in
theorem Invariant.alone_of_writes (h : Invariant s) (hi : (s.thread i).writes = true) :
    holders s = 1 ∧ readers s = 0 := by
  have hle : (s.thread i).writes.toNat ≤ holders s := le_sum (fun t => t.writes.toNat) s.thread i
  rw [hi, Bool.toNat_true] at hle
  obtain h0 | h1 := h.alone
  · omega
  · exact h1

omit [DecidableEq ι] in
theorem Invariant.reads_eq_zero (h : Invariant s) (hi : (s.thread i).writes = true) :
    (s.thread j).reads = 0 := by
  have hle := le_sum Thread.reads s.thread j
  have hr := (h.alone_of_writes hi).2
  rw [readers] at hr
  omega

omit [DecidableEq ι] in
theorem Invariant.writes_eq_false (h : Invariant s) (hi : (s.thread i).writes = true)
    (hj : j ≠ i) : (s.thread j).writes = false := by
  by_contra hne
  have hwj : (s.thread j).writes = true := eq_true_of_ne_false hne
  have hle : (s.thread j).writes.toNat + (s.thread i).writes.toNat ≤ holders s :=
    add_le_sum (fun t => t.writes.toNat) s.thread hj
  rw [hi, hwj, (h.alone_of_writes hi).1] at hle
  exact absurd hle (by decide)

omit [DecidableEq ι] in
theorem holders_eq_zero (h : ∀ i, (s.thread i).writes = false) : holders s = 0 := by
  rw [holders]
  refine Finset.sum_eq_zero ?_
  intro i _
  rw [h i]
  rfl

omit [DecidableEq ι] in
/-- Without repeated acquisitions their number is the number of readers. -/
theorem readers_eq_card (h : ∀ i, (s.thread i).reads ≤ 1) :
    readers s = (Finset.univ.filter (fun i => 0 < (s.thread i).reads)).card := by
  rw [readers, Finset.card_filter]
  refine Finset.sum_congr rfl ?_
  intro i _
  have hi := h i
  split <;> omega

omit [DecidableEq ι] in
theorem announced_eq_card :
    announced s = (Finset.univ.filter (fun i => (s.thread i).pc.announced = true)).card := by
  rw [announced, Finset.card_filter]
  refine Finset.sum_congr rfl ?_
  intro i _
  cases (s.thread i).pc.announced <;> rfl

omit [DecidableEq ι] in
theorem announced_le_card : announced s ≤ Fintype.card ι := by
  rw [announced_eq_card]
  exact Finset.card_le_univ _

/-- **Mutual exclusion, and what the counters count.** -/
theorem rwlock_mutual_exclusion (hcard : Fintype.card ι < 2 ^ 31) (h : Reachable s) :
    (∀ i, (s.thread i).writes = true →
      (∀ j, j ≠ i → (s.thread j).writes = false ∧ (s.thread j).reads = 0) ∧ s.cnt = -1) ∧
    ((∀ i, (s.thread i).writes = false) →
      s.cnt.toInt = ((∑ i, (s.thread i).reads : ℕ) : ℤ) ∧
      ((∀ i, (s.thread i).reads ≤ 1) →
        s.cnt.toInt = (Finset.univ.filter (fun i => 0 < (s.thread i).reads)).card)) ∧
    s.writers.toInt = (Finset.univ.filter (fun i => (s.thread i).pc.announced = true)).card := by
  have hinv := h.invariant
  refine ⟨?_, ?_, ?_⟩
  · intro i hi
    refine ⟨fun j hj => ⟨hinv.writes_eq_false hi hj, hinv.reads_eq_zero hi⟩, ?_⟩
    rw [hinv.cnt, (hinv.alone_of_writes hi).1, (hinv.alone_of_writes hi).2]
    rfl
  · intro hw
    have hcnt : s.cnt.toInt = readers s := by
      rw [hinv.toInt_cnt, holders_eq_zero hw, Nat.cast_zero, sub_zero]
    refine ⟨hcnt, ?_⟩
    intro hone
    rw [hcnt, readers_eq_card hone]
  · have hle : announced s ≤ Fintype.card ι := announced_le_card
    have hnat : (BitVec.ofNat 32 (announced s)).toNat = announced s := by
      rw [BitVec.toNat_ofNat, Nat.mod_eq_of_lt (by omega)]
    rw [hinv.writers, ← announced_eq_card, BitVec.toInt_eq_toNat_of_lt (by omega), hnat]

/-- A writer that has just acquired the lock. -/
theorem rwlock_mutual_exclusion_writer :
    ∃ s : State Bool, run step rwlockCreate
        [.call true .writeLock, .step true false, .step true false] = some s ∧
      (s.thread true).writes = true ∧
      (∀ j, j ≠ true → (s.thread j).writes = false ∧ (s.thread j).reads = 0) ∧ s.cnt = -1 :=
  ⟨_, rfl, rfl, (rwlock_mutual_exclusion (by decide)
    ⟨[.call true .writeLock, .step true false, .step true false], rfl⟩).1 true rfl⟩

/-- **One thread may acquire the read lock twice: `cnt` is then 2, with one reader.** -/
theorem rwlock_cnt_not_threads :
    ∃ s : State Unit, Reachable s ∧ (∀ i, (s.thread i).writes = false) ∧ s.cnt.toInt = 2 ∧
      (Finset.univ.filter (fun i => 0 < (s.thread i).reads)).card = 1 :=
  ⟨_, ⟨[.call () .readLock, .step () false, .step () false, .step () false,
    .call () .readLock, .step () false, .step () false, .step () false], rfl⟩,
    fun _ => rfl, rfl, rfl⟩

end Invariant

end DataStructures.Rwlock
