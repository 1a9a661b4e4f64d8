import DataStructures.Synchronization.Barrier.Rounds

/-!
# What the barrier guarantees

No thread leaves a round before all have arrived in it, and threads that are all inside
`barrier_wait` are not all blocked.
-/

namespace DataStructures.Barrier

open Lib.Runs

variable {ι : Type} {s : State ι} {t : Thread} {r : ℕ}

theorem Thread.At.returns_le (h : t.At r) : t.returns ≤ r := by
  rw [Thread.At] at h
  cases hpc : t.pc <;> rw [hpc] at h <;> dsimp only at h <;> omega

theorem Thread.At.le_arrivals (h : t.At r) : r ≤ t.arrivals := by
  rw [Thread.At] at h
  cases hpc : t.pc <;> rw [hpc] at h <;> dsimp only at h <;> omega

theorem Thread.At.le_returns (h : t.At r) : r ≤ t.returns + 1 := by
  rw [Thread.At] at h
  cases hpc : t.pc <;> rw [hpc] at h <;> dsimp only at h <;> omega

variable [Fintype ι] [DecidableEq ι]

/-- **Rounds never mix: nobody returns from a call before all have arrived in theirs, and
nobody is two calls ahead.** -/
theorem barrier_rounds (hpos : 1 ≤ Fintype.card ι) (hcard : Fintype.card ι < 2 ^ 31)
    (h : Reachable s) (i j : ι) :
    (∀ k, k ≤ (s.thread i).returns → k ≤ (s.thread j).arrivals) ∧
      (s.thread i).returns < (s.thread j).returns + 2 := by
  obtain ⟨r, hr⟩ := h.invariant hpos hcard
  have hi := (hr.threads i).returns_le
  have hj := (hr.threads j).le_arrivals
  have hj' := (hr.threads j).le_returns
  refine ⟨?_, by omega⟩
  intro k hk
  omega

/-- Two threads meet: the second has returned, the first has still to see it. -/
theorem barrier_rounds_meet : ∃ s : State Bool,
    run step (barrierCreate (BitVec.ofNat 32 (Fintype.card Bool)))
      [.call false, .step false, .step false, .call true, .step true, .step true, .step true,
        .step true] = some s ∧
    (s.thread true).returns = 1 ∧ (∀ k, k ≤ 1 → k ≤ (s.thread false).arrivals) :=
  ⟨_, rfl, rfl, (barrier_rounds (by decide) (by decide)
    ⟨[.call false, .step false, .step false, .call true, .step true, .step true, .step true,
      .step true], rfl⟩ true false).1⟩

omit [DecidableEq ι] in
/-- A thread that cannot leave its loop has arrived in the current round. -/
theorem Invariant.arrived_of_blocked {i : ι} {c : BitVec 32} (h : Invariant r s)
    (hpc : (s.thread i).pc = .spin c) (hc : s.state = c) : (s.thread i).arrived r = 1 := by
  have hi := h.threads i
  rw [Thread.At, hpc] at hi
  obtain ⟨hcr, harr, hret⟩ := hi
  have hr : (s.thread i).returns = r := by
    refine hret.resolve_right ?_
    intro hsucc
    apply ofNat_succ_ne (s.thread i).returns
    rw [hsucc, ← h.state, hc, hcr]
  exact if_pos (by rw [harr, hr])

/-- **No release is lost: of threads that are all inside `barrier_wait`, one can go on.** -/
theorem barrier_not_stuck (hpos : 1 ≤ Fintype.card ι) (hcard : Fintype.card ι < 2 ^ 31)
    (h : Reachable s) (hin : ∀ i, (s.thread i).pc ≠ .idle) :
    ∃ i, (s.thread i).pc = .loadState ∨ (∃ c, (s.thread i).pc = .addCount c) ∨
      (s.thread i).pc = .storeCount ∨ (s.thread i).pc = .addState ∨
      ∃ c, (s.thread i).pc = .spin c ∧ s.state ≠ c := by
  obtain ⟨r, hr⟩ := h.invariant hpos hcard
  cases hr.phase with
  | reset l hl _ => exact ⟨l, Or.inr (Or.inr (Or.inl hl))⟩
  | bump l hl _ _ => exact ⟨l, Or.inr (Or.inr (Or.inr (Or.inl hl)))⟩
  | gather hlast _ hlt =>
    by_contra hnone
    have hall : ∀ i, (s.thread i).arrived r = 1 := by
      intro i
      have hi := hlast i
      cases hpc : (s.thread i).pc with
      | idle => exact absurd hpc (hin i)
      | loadState => exact absurd ⟨i, Or.inl hpc⟩ hnone
      | addCount c => exact absurd ⟨i, Or.inr (Or.inl ⟨c, hpc⟩)⟩ hnone
      | storeCount | addState =>
        rw [hpc] at hi
        exact Bool.noConfusion hi
      | spin c =>
        by_cases hc : s.state = c
        · exact hr.arrived_of_blocked hpc hc
        · exact absurd ⟨i, Or.inr (Or.inr (Or.inr (Or.inr ⟨c, hpc, hc⟩)))⟩ hnone
    rw [Finset.sum_congr rfl (fun i _ => hall i), ← Finset.card_eq_sum_ones, Finset.card_univ]
      at hlt
    exact absurd hlt (Nat.lt_irrefl _)

/-- One thread waits in round 0 while the other is about to arrive. -/
theorem barrier_not_stuck_meet : ∃ s : State Bool,
    run step (barrierCreate (BitVec.ofNat 32 (Fintype.card Bool)))
      [.call false, .step false, .step false, .call true] = some s ∧
    ∃ i, (s.thread i).pc = .loadState ∨ (∃ c, (s.thread i).pc = .addCount c) ∨
      (s.thread i).pc = .storeCount ∨ (s.thread i).pc = .addState ∨
      ∃ c, (s.thread i).pc = .spin c ∧ s.state ≠ c :=
  ⟨_, rfl, barrier_not_stuck (by decide) (by decide)
    ⟨[.call false, .step false, .step false, .call true], rfl⟩
    (fun i => by cases i <;> exact Pc.noConfusion)⟩

end DataStructures.Barrier
