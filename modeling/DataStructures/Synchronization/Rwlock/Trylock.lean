import DataStructures.Synchronization.Rwlock.Safety

/-!
# `rwlock_write_trylock`

The function announces itself in `writers` and then tests `writers` for 0, so it finds
its own announcement.  Alone on a free lock it returns -1, never 0.  Of what it writes
nothing remains after it has returned -1.
-/

namespace DataStructures.Rwlock

open Lib.Runs

variable {ι : Type} [DecidableEq ι] {s s' s₁ s₂ : State ι} {a : Act ι} {as : List (Act ι)}
  {i j : ι}

/-- The thread is inside a lock or a trylock function. -/
def Pc.locking : Pc → Bool
  | .readLock _ | .readTrylock _ | .writeLock _ | .writeTrylock _ => true
  | _ => false

/-- No thread holds the lock, no other thread is inside a lock or trylock call, and `i`
may begin one. -/
structure Quiet (i : ι) (s : State ι) : Prop where
  reads : ∀ j, (s.thread j).reads = 0
  writes : ∀ j, (s.thread j).writes = false
  others : ∀ j, j ≠ i → (s.thread j).pc.locking = false
  caller : (s.thread i).pc = .idle

/-- `rwlock_write_trylock`, run by `i` alone, returns 0 and leaves `i` with the write
lock. -/
def SucceedsAlone (i : ι) (s : State ι) : Prop :=
  ∃ spurious : List Bool, ∃ s' : State ι,
    run step s (.call i .writeTrylock :: spurious.map (.step i)) = some s' ∧
    (s'.thread i).pc = .idle ∧ (s'.thread i).ret = some 0 ∧ (s'.thread i).writes = true ∧
    s'.cnt = -1 ∧ s'.writers = 0

/-! ### Alone -/

theorem Pc.announced_of_not_locking {pc : Pc} (h : pc.locking = false) :
    pc.announced = false := by
  cases pc with
  | idle | readUnlock | writeUnlock => rfl
  | readLock | readTrylock | writeLock | writeTrylock => exact Bool.noConfusion h

omit [DecidableEq ι] in
theorem Quiet.writers_eq_zero [Fintype ι] (h : Quiet i s) (hinv : Invariant s) :
    s.writers = 0 := by
  have hzero : announced s = 0 := by
    refine Finset.sum_eq_zero ?_
    intro j _
    obtain rfl | hj := eq_or_ne j i
    · rw [h.caller]
      rfl
    · rw [Pc.announced_of_not_locking (h.others j hj)]
      rfl
  rw [hinv.writers, hzero]
  rfl

theorem step_writeTrylock {p : WriteTryPc} {b : Bool} (h : (s.thread i).pc = .writeTrylock p) :
    step s (.step i b) = rwlockWriteTrylock s i p := by
  rw [step, h]

theorem step_idle {b : Bool} (h : (s.thread i).pc = .idle) : step s (.step i b) = none := by
  rw [step, h]

/-- A call that begins with no writer announced returns -1 and never reaches its
compare-exchange. -/
theorem run_alone (h : (s.thread i).pc = .idle) (hw : s.writers = 0) (b₁ b₂ b₃ : Bool) :
    run step s [.call i .writeTrylock, .step i b₁, .step i b₂, .step i b₃] =
      some (s.returning i (-1)) := by
  simp [step, h, Call.allowed, Call.entry, State.goto, State.put, rwlockWriteTrylock, hw,
    State.returning]

theorem not_succeedsAlone (h : (s.thread i).pc = .idle) (hw : s.writers = 0) :
    ¬ SucceedsAlone i s := by
  rintro ⟨spurious, s', hr, hidle, hret, -⟩
  have hstuck := fun bs => run_stuck hr (step_idle (b := false) hidle) bs
  rcases spurious with _ | ⟨b₁, _ | ⟨b₂, _ | ⟨b₃, _ | ⟨b₄, bs⟩⟩⟩⟩
  · exact absurd ((run_alone h hw false false false).symm.trans
      (hstuck [.step i false, .step i false])) (by simp)
  · exact absurd ((run_alone h hw b₁ false false).symm.trans (hstuck [.step i false])) (by simp)
  · exact absurd ((run_alone h hw b₁ b₂ false).symm.trans (hstuck [])) (by simp)
  · -- the call has just returned
    obtain rfl := Option.some.inj (hr.symm.trans (run_alone h hw b₁ b₂ b₃))
    rw [State.returning, put_thread_self] at hret
    exact absurd (Option.some.inj hret) (by decide)
  · -- the call has returned before
    have hnone := run_stuck (run_alone h hw b₁ b₂ b₃)
      (step_idle (i := i) (b := b₄) (by rw [State.returning, put_thread_self])) (bs.map (.step i))
    exact absurd (hr.symm.trans hnone) (by simp)

/-! ### Among other threads -/

/-- What `i` itself has added to `writers` in a step. -/
def ownWriters (i : ι) (s : State ι) (a : Act ι) (s' : State ι) : BitVec 32 :=
  if a.thread = i then s'.writers - s.writers else 0

/-- Whether `i` itself has changed `cnt` in a step. -/
def ownCntChanges (i : ι) (s : State ι) (a : Act ι) (s' : State ι) : ℕ :=
  if a.thread = i ∧ s'.cnt ≠ s.cnt then 1 else 0

/-- `i` is inside `rwlock_write_trylock`. -/
def InTrylock (i : ι) (s : State ι) : Prop := ∃ p, (s.thread i).pc = .writeTrylock p

/-- What `i` has in `writers`. -/
def ownAnnounced (i : ι) (s : State ι) : BitVec 32 := bif (s.thread i).pc.announced then 1 else 0

/-- Whether `i` has changed `cnt` in its call. -/
def ownAcquired (i : ι) (s : State ι) : ℕ :=
  if (s.thread i).pc = .writeTrylock (.subWriters 0) then 1 else 0

/-- The steps of the others do not move `i`. -/
theorem step_thread_of_ne (hp : ∀ j, (s.thread j).Local) (h : step s a = some s')
    (hi : a.thread ≠ i) : s'.thread i = s.thread i := by
  obtain ⟨t, ht, -⟩ := step_effects hp h
  rw [ht, Function.update_of_ne hi.symm]

/-- A step of `i` inside the call changes `writers` by its announcement and `cnt` by its
acquisition. -/
theorem step_own {p : WriteTryPc} {b : Bool} (hp : (s.thread i).pc = .writeTrylock p)
    (hin : InTrylock i s') (h : step s (.step i b) = some s') :
    ownAnnounced i s' = ownAnnounced i s + (s'.writers - s.writers) ∧
      ownAcquired i s' = ownAcquired i s + if s'.cnt ≠ s.cnt then 1 else 0 := by
  rw [step_writeTrylock hp] at h
  cases p with
  | addWriters =>
    obtain rfl := Option.some.inj h
    simp [ownAnnounced, ownAcquired, hp, State.goto, Pc.announced]
  | loadWriters =>
    rw [rwlockWriteTrylock] at h
    split at h
    all_goals
      obtain rfl := Option.some.inj h
      simp [ownAnnounced, ownAcquired, hp, State.goto, Pc.announced]
  | cas =>
    rw [rwlockWriteTrylock] at h
    split at h
    · rename_i hc
      obtain rfl := Option.some.inj h
      simp [ownAnnounced, ownAcquired, hp, State.goto, State.setWrites, Pc.announced, hc]
    · obtain rfl := Option.some.inj h
      simp [ownAnnounced, ownAcquired, hp, State.goto, Pc.announced]
  | subWriters ret =>
    obtain rfl := Option.some.inj h
    obtain ⟨q, hq⟩ := hin
    rw [State.returning, put_thread_self] at hq
    exact absurd hq (by simp)

/-- Inside the call every step keeps the account. -/
theorem step_account (hp : ∀ j, (s.thread j).Local) (hin : InTrylock i s) (hin' : InTrylock i s')
    (h : step s a = some s') : ownAnnounced i s' = ownAnnounced i s + ownWriters i s a s' ∧
      ownAcquired i s' = ownAcquired i s + ownCntChanges i s a s' := by
  by_cases ha : a.thread = i
  · obtain ⟨p, hpc⟩ := hin
    cases a with
    | call j f =>
      obtain rfl : j = i := ha
      rw [step, hpc] at h
      exact absurd h (by simp)
    | step j b =>
      obtain rfl : j = i := ha
      have hj : (Act.step j b).thread = j := rfl
      rw [ownWriters, ownCntChanges, if_pos hj]
      simp only [hj, true_and]
      exact step_own hpc hin' h
  · have ht := step_thread_of_ne hp h ha
    rw [ownWriters, ownCntChanges, if_neg ha, if_neg (fun hc => ha hc.1), ownAnnounced,
      ownAnnounced, ownAcquired, ownAcquired, ht, add_zero, Nat.add_zero]
    exact ⟨rfl, rfl⟩

/-- A thread inside the call stays there until it is idle. -/
theorem InTrylock.next (hp : ∀ j, (s.thread j).Local) (hin : InTrylock i s)
    (hidle : (s'.thread i).pc ≠ .idle) (h : step s a = some s') : InTrylock i s' := by
  by_cases ha : a.thread = i
  · obtain ⟨p, hpc⟩ := hin
    cases a with
    | call j f =>
      obtain rfl : j = i := ha
      rw [step, hpc] at h
      exact absurd h (by simp)
    | step j b =>
      obtain rfl : j = i := ha
      rw [step_writeTrylock hpc] at h
      cases p with
      | addWriters =>
        obtain rfl := Option.some.inj h
        exact ⟨_, congrArg Thread.pc put_thread_self⟩
      | loadWriters | cas =>
        rw [rwlockWriteTrylock] at h
        split at h
        all_goals
          obtain rfl := Option.some.inj h
          exact ⟨_, congrArg Thread.pc put_thread_self⟩
      | subWriters ret =>
        obtain rfl := Option.some.inj h
        rw [State.returning, put_thread_self] at hidle
        exact absurd rfl hidle
  · rw [InTrylock, step_thread_of_ne hp h ha]
    exact hin

/-- The last step of a call that returns -1. -/
theorem step_return {b : Bool} (hin : InTrylock i s) (h : step s (.step i b) = some s')
    (hidle : (s'.thread i).pc = .idle) (hret : (s'.thread i).ret = some (-1)) :
    ownAnnounced i s + ownWriters i s (.step i b) s' = 0 ∧
      ownAcquired i s + ownCntChanges i s (.step i b) s' = 0 := by
  obtain ⟨p, hpc⟩ := hin
  rw [step_writeTrylock hpc] at h
  cases p with
  | addWriters =>
    obtain rfl := Option.some.inj h
    rw [State.goto, put_thread_self] at hidle
    exact Pc.noConfusion hidle
  | loadWriters | cas =>
    rw [rwlockWriteTrylock] at h
    split at h
    all_goals
      obtain rfl := Option.some.inj h
      rw [State.goto, put_thread_self] at hidle
      exact Pc.noConfusion hidle
  | subWriters ret =>
    obtain rfl := Option.some.inj h
    rw [State.returning, put_thread_self] at hret
    have hne : ret ≠ 0 := by
      rintro rfl
      exact absurd (Option.some.inj hret) (by decide)
    simp [ownAnnounced, ownAcquired, ownWriters, ownCntChanges, hpc, Pc.announced, Act.thread, hne,
      State.returning]

section Fintype

variable [Fintype ι]

/-- **A call of `rwlock_write_trylock` that returns -1 has left nothing behind.** -/
theorem writeTrylock_leaves_nothing {b : Bool} (hs : Reachable s)
    (hcall : step s (.call i .writeTrylock) = some s₁)
    (hin : Along step (fun t => (t.thread i).pc ≠ .idle) s₁ as) (hr : run step s₁ as = some s₂)
    (hlast : step s₂ (.step i b) = some s') (hidle : (s'.thread i).pc = .idle)
    (hret : (s'.thread i).ret = some (-1)) :
    tally step (ownCntChanges i) s₁ (as ++ [.step i b]) = 0 ∧
      tally step (ownWriters i) s₁ (as ++ [.step i b]) = 0 := by
  have hpc : (s₁.thread i).pc = .writeTrylock .addWriters := by
    rw [step] at hcall
    split at hcall
    · obtain rfl := Option.some.inj hcall
      exact congrArg Thread.pc put_thread_self
    · exact absurd hcall (by simp)
  have hinv : Along step (fun t => (t.thread i).pc ≠ .idle ∧ (Invariant t ∧ InTrylock i t)) s₁ as :=
    hin.and_of_step (fun _ hidle hP ha => ⟨hP.1.next ha, hP.2.next hP.1.points hidle ha⟩)
      ⟨Reachable.invariant (s := s₁) (hs.tail hcall), _, hpc⟩
  have hw := tally_eq (d := ownWriters i) (ownAnnounced i)
    (fun hP hP' ha => (step_account hP.2.1.points hP.2.2 hP'.2.2 ha).1) hinv hr
  have hc := tally_eq (d := ownCntChanges i) (ownAcquired i)
    (fun hP hP' ha => (step_account hP.2.1.points hP.2.2 hP'.2.2 ha).2) hinv hr
  have hend := step_return (hinv.last hr).2.2 hlast hidle hret
  have hw₀ : ownAnnounced i s₁ = 0 := by
    rw [ownAnnounced, hpc]
    rfl
  have hc₀ : ownAcquired i s₁ = 0 := by
    rw [ownAcquired, hpc]
    rfl
  rw [hw₀, zero_add] at hw
  rw [hc₀, Nat.zero_add] at hc
  rw [tally_append hr, tally_append hr, tally_cons hlast, tally_cons hlast, tally, tally, add_zero,
    add_zero, ← hw, ← hc]
  exact ⟨hend.2, hend.1⟩

/-- **`rwlock_write_trylock` never succeeds: on a free lock, run alone, it returns -1.**
Among other threads too, a call that returns -1 has left `cnt` alone and has added nothing
to `writers`. -/
theorem rwlock_write_trylock_fails (hs : Reachable s) (i : ι) :
    (Quiet i s → ¬ SucceedsAlone i s ∧ ∀ b₁ b₂ b₃,
      run step s [.call i .writeTrylock, .step i b₁, .step i b₂, .step i b₃] =
        some (s.returning i (-1))) ∧
    ∀ s₁ as s₂ b s', step s (.call i .writeTrylock) = some s₁ →
      Along step (fun t => (t.thread i).pc ≠ .idle) s₁ as → run step s₁ as = some s₂ →
      step s₂ (.step i b) = some s' → (s'.thread i).pc = .idle →
      (s'.thread i).ret = some (-1) →
      tally step (ownCntChanges i) s₁ (as ++ [.step i b]) = 0 ∧
        tally step (ownWriters i) s₁ (as ++ [.step i b]) = 0 := by
  refine ⟨?_, ?_⟩
  · intro hq
    have hw := hq.writers_eq_zero hs.invariant
    exact ⟨not_succeedsAlone hq.caller hw, run_alone hq.caller hw⟩
  · intro s₁ as s₂ b s' hcall hin hr hlast hidle hret
    exact writeTrylock_leaves_nothing hs hcall hin hr hlast hidle hret

end Fintype

omit [DecidableEq ι] in
theorem quiet_create : Quiet i (rwlockCreate : State ι) :=
  ⟨fun _ => rfl, fun _ => rfl, fun _ _ => rfl, rfl⟩

/-- The first call on a new lock. -/
theorem rwlock_write_trylock_fails_create :
    ¬ SucceedsAlone () (rwlockCreate : State Unit) ∧
      run step (rwlockCreate : State Unit)
        [.call () .writeTrylock, .step () false, .step () false, .step () false] =
        some (rwlockCreate.returning () (-1)) :=
  have h := (rwlock_write_trylock_fails (Reachable.refl step rwlockCreate) ()).1 quiet_create
  ⟨h.1, h.2 false false false⟩

/-- A new lock is free, and the first `rwlock_write_trylock` on it returns -1. -/
theorem rwlock_write_trylock_new_lock :
    Reachable (rwlockCreate : State Unit) ∧ Quiet () (rwlockCreate : State Unit) ∧
      ¬ SucceedsAlone () (rwlockCreate : State Unit) :=
  ⟨Reachable.refl step rwlockCreate, quiet_create, not_succeedsAlone rfl rfl⟩

end DataStructures.Rwlock
