import DataStructures.Synchronization.Rwlock.Safety

/-!
# A waiting writer is not overtaken

While a writer waits `writers` is not 0, so no reader passes the check of `writers`
any more.  A reader that passed it before acquires at most once and then has to pass the
check again.
-/

namespace DataStructures.Rwlock

open Lib.Runs

variable {ι : Type} [DecidableEq ι] {s s' t : State ι} {a : Act ι} {as : List (Act ι)} {i w : ι}

/-- `w` has made its increment in `rwlock_write_lock`, and its compare-exchange has not
succeeded. -/
def Waiting (w : ι) (s : State ι) : Prop := (s.thread w).pc = .writeLock .cas

/-- The read acquisitions of `i` in one step. -/
def acquisitions (i : ι) (s : State ι) (_ : Act ι) (s' : State ι) : ℕ :=
  (s'.thread i).reads - (s.thread i).reads

variable [Fintype ι]

omit [DecidableEq ι] in
/-- A writer that waits is seen by those who read `writers`. -/
theorem Invariant.writers_ne_zero (h : Invariant s) (hcard : Fintype.card ι < 2 ^ 32)
    (hw : (s.thread w).pc.announced = true) : s.writers ≠ 0 := by
  intro hzero
  have hpos : (s.thread w).pc.announced.toNat ≤ announced s :=
    le_sum (fun t => t.pc.announced.toNat) s.thread w
  rw [hw, Bool.toNat_true] at hpos
  have hle : announced s ≤ Fintype.card ι := announced_le_card
  have hnat := congrArg BitVec.toNat (h.writers.symm.trans hzero)
  rw [BitVec.toNat_ofNat, Nat.mod_eq_of_lt (by omega)] at hnat
  have hz : (0 : BitVec 32).toNat = 0 := rfl
  omega

/-- A step of a thread pays for a read acquisition with having passed the check, and no
thread passes it while a writer waits. -/
theorem Invariant.acquisitions_add_le (h : Invariant s) (hw : s.writers ≠ 0)
    (ha : step s a = some s') :
    acquisitions i s a s' + (s'.thread i).pc.passed.toNat ≤ (s.thread i).pc.passed.toNat := by
  obtain ⟨t, ht, he⟩ := step_effects h.points ha
  generalize a.thread = j at ht he
  rw [acquisitions, ht]
  obtain rfl | hij := eq_or_ne i j
  · rw [Function.update_self]
    generalize s'.cnt = cnt' at he
    generalize s'.writers = writers' at he
    cases he with
    | keep hreads _ _ _ hpassed =>
      rw [hreads, Nat.sub_self, Nat.zero_add]
      cases htp : t.pc.passed with
      | false => exact Nat.zero_le _
      | true =>
        obtain hp | hz := hpassed htp
        · rw [hp]
        · exact absurd hz hw
    | acquireRead hp _ _ _ hpc =>
      subst hpc
      rw [hp]
      show (s.thread i).reads + 1 - (s.thread i).reads + 0 ≤ 1
      omega
    | releaseRead =>
      show (s.thread i).reads - 1 - (s.thread i).reads + 0 ≤ _
      omega
    | announce _ _ hpc _ =>
      simp only [hpc, Bool.toNat_false]
      omega
    | retract =>
      show (s.thread i).reads - (s.thread i).reads + 0 ≤ _
      omega
    | acquireWrite _ _ hpc _ _ =>
      simp only [hpc, Bool.toNat_false]
      omega
    | releaseWrite =>
      show (s.thread i).reads - (s.thread i).reads + 0 ≤ _
      omega
  · rw [Function.update_of_ne hij, Nat.sub_self, Nat.zero_add]

/-- While `w` waits a thread acquires at most once, and only if it has passed the check
already. -/
theorem tally_acquisitions_le (hcard : Fintype.card ι < 2 ^ 32) (hs : Reachable s)
    (hw : Along step (Waiting w) s as) (hr : run step s as = some s') :
    tally step (acquisitions i) s as ≤ (s.thread i).pc.passed.toNat := by
  have halong : Along step (fun s => Waiting w s ∧ Invariant s) s as :=
    hw.and_of_step (fun _ _ hi ha => hi.next ha) hs.invariant
  have hle := tally_add_le (d := acquisitions i) (fun s => (s.thread i).pc.passed.toNat)
    (fun hP ha => hP.2.acquisitions_add_le (hP.2.writers_ne_zero hcard (by rw [hP.1]; rfl)) ha)
    halong hr
  omega

omit [Fintype ι] in
/-- A call begins before the check. -/
theorem passed_call {f : Call} (h : step s (.call i f) = some s') :
    (s'.thread i).pc.passed = false := by
  rw [step] at h
  split at h
  · obtain rfl := Option.some.inj h
    rw [State.goto, put_thread_self]
    cases f <;> rfl
  · exact absurd h (by simp)

/-- **While a writer waits no call begun since acquires the read lock, and every thread
acquires it at most once.** -/
theorem rwlock_no_overtaking (hcard : Fintype.card ι < 2 ^ 32) (hs : Reachable s)
    (hw : Along step (Waiting w) s as) (hr : run step s as = some s') :
    (∀ i f t bs cs, as = bs ++ .call i f :: cs → run step s (bs ++ [.call i f]) = some t →
      tally step (acquisitions i) t cs = 0) ∧
    ∀ i, tally step (acquisitions i) s as ≤ 1 := by
  refine ⟨?_, ?_⟩
  · intro i f t bs cs has ht
    rw [has, List.append_cons] at hw hr
    obtain ⟨t', ht', hcs⟩ := run_append_eq hr
    obtain rfl := Option.some.inj (ht.symm.trans ht')
    have hle := tally_acquisitions_le (i := i) hcard (hs.trans ht) (hw.drop ht) hcs
    obtain ⟨u, -, hu⟩ := run_append_eq ht
    obtain ⟨v, hv, hnil⟩ := run_cons_eq hu
    obtain rfl := Option.some.inj hnil
    rw [passed_call hv] at hle
    exact Nat.le_zero.mp hle
  · intro i
    exact (tally_acquisitions_le hcard hs hw hr).trans (Bool.toNat_le _)

/-- A reader holds the lock, a writer waits, and the reader tries again. -/
theorem rwlock_no_overtaking_retry :
    ∃ s s' : State Bool, run step rwlockCreate
        [.call false .readLock, .step false false, .step false false, .step false false,
          .call true .writeLock, .step true false] = some s ∧
      run step s [.call false .readTrylock, .step false false] = some s' ∧
      ∀ i, tally step (acquisitions i) s [.call false .readTrylock, .step false false] ≤ 1 := by
  refine ⟨_, _, rfl, rfl, ?_⟩
  refine (rwlock_no_overtaking (w := true) (by decide)
    ⟨[.call false .readLock, .step false false, .step false false, .step false false,
      .call true .writeLock, .step true false], rfl⟩ ?_ rfl).2
  refine ⟨rfl, ?_⟩
  intro s hs
  obtain rfl := Option.some.inj hs
  refine ⟨rfl, ?_⟩
  intro s hs
  obtain rfl := Option.some.inj hs
  rfl

end DataStructures.Rwlock
