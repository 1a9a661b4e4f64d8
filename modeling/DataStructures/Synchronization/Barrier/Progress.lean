import DataStructures.Lib.Progress
import DataStructures.Synchronization.Barrier.Correct

/-!
# Every round can be completed

From every reachable state the threads can all come out of the round they are in, each of them
beginning at most one more call (`barrier_completes`).  `Thread.rank` is what a thread has still to
do in round `r`.

A barrier whose size is 0, negative, or above the number of the threads never opens
(`barrier_never_opens`): `count` does not get to `size - 1`.
-/

namespace DataStructures.Barrier

open Lib.Runs

variable {ι : Type} {s s' : State ι} {i j : ι} {t : Thread} {r : ℕ}

/-- How far a thread is from having returned from round `r`. -/
def Thread.rank (r : ℕ) (t : Thread) : ℕ :=
  if r < t.returns then 0
  else
    match t.pc with
    | .idle => 6
    | .loadState => 5
    | .addCount _ => 4
    | .storeCount => 3
    | .addState => 2
    | .spin _ => if t.returns = r then 1 else 7

/-- The thread has returned from round `r`. -/
def Thread.Out (r : ℕ) (t : Thread) : Prop := t.pc = .idle ∧ t.arrivals = r + 1 ∧ t.returns = r + 1

theorem Thread.Out.rank (h : t.Out r) : t.rank r = 0 := by
  rw [Thread.rank, if_pos (by rw [h.2.2]; omega)]

theorem Thread.Waits.rank (h : t.Waits r) : t.rank r = 1 := by
  obtain ⟨hpc, -, hret⟩ := h
  rw [Thread.rank, if_neg (by omega), hpc]
  exact if_pos hret

variable [Fintype ι] [DecidableEq ι]

/-- Round `r` is being completed: it goes on, or the next one has begun and no thread has called
again. -/
def Completing (r : ℕ) (s : State ι) : Prop :=
  Invariant r s ∨ Invariant (r + 1) s ∧ ∀ i, (s.thread i).Out r ∨ (s.thread i).Waits r

/-- What all threads have still to do. -/
def rank (r : ℕ) (s : State ι) : ℕ := ∑ i, (s.thread i).rank r

/-- An action with which thread `i` becomes `t`. -/
theorem exists_step_of {a : Act ι} (ha : step s a = some s')
    (hs' : s'.thread = Function.update s.thread i t) (hc : Completing r s')
    (hlt : t.rank r < (s.thread i).rank r) :
    ∃ a s', True ∧ step s a = some s' ∧ Completing r s' ∧ rank r s' < rank r s := by
  refine ⟨a, s', trivial, ha, hc, ?_⟩
  rw [rank, hs']
  exact sum_update_lt (Thread.rank r) s.thread i t hlt

/-- **A thread that has not arrived in the round** comes forward. -/
theorem Invariant.step_gather (h : Invariant r s) (hcard : Fintype.card ι < 2 ^ 31)
    (hlast : (s.thread i).pc.last = false) (harr : (s.thread i).arrivals ≠ r + 1) :
    ∃ a s', True ∧ step s a = some s' ∧ Completing r s' ∧ rank r s' < rank r s := by
  have hi := h.threads i
  have hwaits : ¬ (s.thread i).Waits r := fun hw => harr hw.2.1
  rw [Thread.At] at hi
  cases hpc : (s.thread i).pc with
  | idle =>
    rw [hpc] at hi
    have ha : step s (.call i) = some (s.goto i .loadState) := by rw [step, if_pos hpc]
    refine exists_step_of ha rfl (Or.inl (h.move hlast hwaits hi rfl rfl)) ?_
    simp [Thread.rank, hpc, hi.2]
  | loadState =>
    rw [hpc] at hi
    have ha : step s (.step i) = some (s.goto i (.addCount s.state)) := by
      rw [step, hpc]
      rfl
    refine exists_step_of ha rfl (Or.inl (h.move hlast hwaits ⟨h.state, hi⟩ rfl rfl)) ?_
    simp [Thread.rank, hpc, hi.2]
  | addCount c =>
    rw [hpc] at hi
    have hnext : ∀ s', barrierWait s i (.addCount c) = some s' → Completing r s' :=
      fun s' hs' => Or.inl (h.arrive hcard hpc hs')
    rw [barrierWait] at hnext
    by_cases hc : s.count = s.size - 1
    · have ha : step s (.step i) = some ({ s with count := s.count + 1 }.arrive i .storeCount) := by
        rw [step, hpc, barrierWait, if_pos hc]
      refine exists_step_of ha rfl (hnext _ (if_pos hc)) ?_
      simp [Thread.rank, hpc, hi.2.2]
    · have ha : step s (.step i) = some ({ s with count := s.count + 1 }.arrive i (.spin c)) := by
        rw [step, hpc, barrierWait, if_neg hc]
      refine exists_step_of ha rfl (hnext _ (if_neg hc)) ?_
      simp [Thread.rank, hpc, hi.2.2]
  | storeCount | addState =>
    rw [hpc] at hlast
    exact Bool.noConfusion hlast
  | spin c =>
    rw [hpc] at hi
    obtain ⟨hc, harrivals, hret⟩ := hi
    have hret : (s.thread i).returns + 1 = r := hret.resolve_left (fun he => harr (by omega))
    have hne : s.state ≠ c := by
      rw [h.state, hc, ← hret]
      exact ofNat_succ_ne _
    have ha : step s (.step i) = some (s.leave i) := by rw [step, hpc, barrierWait, if_neg hne]
    refine exists_step_of ha rfl (Or.inl (h.release hpc hne)) ?_
    have hold : (s.thread i).rank r = 7 := by
      rw [Thread.rank, if_neg (by omega), hpc]
      exact if_neg (by omega)
    have hnew : Thread.rank r { s.thread i with
        pc := .idle, returns := (s.thread i).returns + 1 } = 6 := by
      rw [Thread.rank]
      exact if_neg (by show ¬ r < (s.thread i).returns + 1; omega)
    rw [hold, hnew]
    decide

/-- **While the round is not completed some action brings it forward.** -/
theorem Completing.exists_step (h : Completing r s) (hcard : Fintype.card ι < 2 ^ 31)
    (hn : ¬ ∀ i, (s.thread i).Out r) :
    ∃ a s', True ∧ step s a = some s' ∧ Completing r s' ∧ rank r s' < rank r s := by
  rcases h with h | ⟨h, hall⟩
  · cases hp : h.phase with
    | gather hlast _ hlt =>
      obtain ⟨i, hi⟩ : ∃ i, (s.thread i).arrivals ≠ r + 1 := by
        by_contra hnone
        have hone : ∀ i ∈ Finset.univ, (s.thread i).arrived r = 1 :=
          fun i _ => if_pos (not_not.mp (not_exists.mp hnone i))
        rw [Finset.sum_congr rfl hone, ← Finset.card_eq_sum_ones, Finset.card_univ] at hlt
        exact Nat.lt_irrefl _ hlt
      exact h.step_gather hcard (hlast i) hi
    | reset l hl _ =>
      have hat := h.threads l
      rw [Thread.At, hl] at hat
      have ha : step s (.step l) = some ({ s with count := 0 }.goto l .addState) := by
        rw [step, hl]
        rfl
      refine exists_step_of ha rfl (Or.inl (h.reset hl)) ?_
      simp [Thread.rank, hl, hat.2]
    | bump l hl hothers _ =>
      have hat := h.threads l
      rw [Thread.At, hl] at hat
      have ha : step s (.step l) = some ({ s with state := s.state + 1 }.leave l) := by
        rw [step, hl]
        rfl
      refine exists_step_of ha rfl (Or.inr ⟨h.bump (Fintype.card_pos_iff.mpr ⟨l⟩) hl, ?_⟩) ?_
      · exact put_thread (fun t => t.Out r ∨ t.Waits r)
          (Or.inl ⟨rfl, hat.1, congrArg (· + 1) hat.2⟩) (fun j hj => Or.inr (hothers j hj))
      · simp [Thread.rank, hl, hat.2]
  -- the next round has begun: a thread that waits finds that
  · obtain ⟨i, hi⟩ := not_forall.mp hn
    have hw := (hall i).resolve_left hi
    have hne : s.state ≠ BitVec.ofNat 32 r := by
      rw [h.state]
      exact ofNat_succ_ne r
    have ha : step s (.step i) = some (s.leave i) := by rw [step, hw.1, barrierWait, if_neg hne]
    have hout : Thread.Out r { s.thread i with pc := .idle, returns := (s.thread i).returns + 1 } :=
      ⟨rfl, hw.2.1, congrArg (· + 1) hw.2.2⟩
    refine exists_step_of ha rfl (Or.inr ⟨h.release hw.1 hne, ?_⟩) ?_
    · exact put_thread (fun t => t.Out r ∨ t.Waits r) (Or.inl hout) (fun j _ => hall j)
    · rw [hw.rank, hout.rank]
      exact Nat.zero_lt_one

/-- **Every round can be completed.**  From every reachable state some run takes all threads out of
`barrier_wait`, all of them having been through the same number of rounds; no thread has to begin
more than one call for it. -/
theorem barrier_completes (hpos : 1 ≤ Fintype.card ι) (hcard : Fintype.card ι < 2 ^ 31)
    (h : Reachable s) : ∃ r, (∀ i, r ≤ (s.thread i).arrivals + 1) ∧
      CanReach step (fun _ => True) (fun s' => ∀ i, (s'.thread i).pc = .idle ∧
        (s'.thread i).arrivals = r ∧ (s'.thread i).returns = r) s := by
  obtain ⟨r, hr⟩ := h.invariant hpos hcard
  refine ⟨r + 1, fun i => Nat.add_le_add_right (hr.threads i).le_arrivals 1, ?_⟩
  obtain ⟨as, s', has, hrun, -, hout⟩ := canReach_of_measure (P := Completing r) (rank r)
    (fun _ hs hn => hs.exists_step hcard hn) (Or.inl hr)
  exact ⟨as, s', has, hrun, hout⟩

/-- Two threads, one of which waits in the first round. -/
theorem barrier_completes_meet : ∃ s : State Bool,
    run step (barrierCreate (BitVec.ofNat 32 (Fintype.card Bool)))
      [.call false, .step false, .step false] = some s ∧
    ∃ r, (∀ i, r ≤ (s.thread i).arrivals + 1) ∧
      CanReach step (fun _ => True) (fun s' => ∀ i, (s'.thread i).pc = .idle ∧
        (s'.thread i).arrivals = r ∧ (s'.thread i).returns = r) s :=
  ⟨_, rfl, barrier_completes (by decide) (by decide)
    ⟨[.call false, .step false, .step false], rfl⟩⟩

/-! ### A barrier of another size -/

/-- A thread that has not returned from a barrier that has not opened. -/
def Thread.Shut (t : Thread) : Prop :=
  t.returns = 0 ∧
    match t.pc with
    | .idle | .loadState => t.arrivals = 0
    | .addCount c => c = 0 ∧ t.arrivals = 0
    | .spin c => c = 0 ∧ t.arrivals = 1
    | .storeCount | .addState => False

/-- Nobody has returned, and `count` is the number of those that have arrived. -/
structure Closed (size : BitVec 32) (s : State ι) : Prop where
  size : s.size = size
  state : s.state = 0
  count : s.count = BitVec.ofNat 32 (∑ i, (s.thread i).arrivals)
  threads : ∀ i, (s.thread i).Shut

omit [Fintype ι] [DecidableEq ι] in
theorem Thread.Shut.arrivals_le (h : t.Shut) : t.arrivals ≤ 1 := by
  obtain ⟨-, h⟩ := h
  cases hpc : t.pc with
  | idle | loadState =>
    rw [hpc] at h
    exact h ▸ Nat.zero_le 1
  | addCount c =>
    rw [hpc] at h
    exact h.2 ▸ Nat.zero_le 1
  | spin c =>
    rw [hpc] at h
    exact h.2.le
  | storeCount | addState =>
    rw [hpc] at h
    exact h.elim

omit [DecidableEq ι] in
/-- While a thread has not arrived, `count` is below the number of threads. -/
theorem Closed.count_lt {size : BitVec 32} (h : Closed size s)
    (hcard : Fintype.card ι < 2 ^ 32) (hi : (s.thread i).arrivals = 0) :
    s.count.toNat < Fintype.card ι := by
  have hlt : (∑ j, (s.thread j).arrivals) < ∑ _j : ι, 1 := by
    refine Finset.sum_lt_sum (fun j _ => (h.threads j).arrivals_le) ⟨i, Finset.mem_univ i, ?_⟩
    rw [hi]
    exact Nat.zero_lt_one
  rw [← Finset.card_eq_sum_ones, Finset.card_univ] at hlt
  rw [h.count, BitVec.toNat_ofNat, Nat.mod_eq_of_lt (by omega)]
  exact hlt

/-- A thread moves without arriving. -/
theorem Closed.move {size : BitVec 32} (h : Closed size s) (ht : t.Shut)
    (harr : t.arrivals = (s.thread i).arrivals) : Closed size (s.put i t) := by
  have hsum := sum_update Thread.arrivals s.thread i t
  rw [harr] at hsum
  refine ⟨h.size, h.state, ?_, put_thread Thread.Shut ht (fun j _ => h.threads j)⟩
  show s.count = BitVec.ofNat 32 (∑ j, (Function.update s.thread i t j).arrivals)
  rw [Nat.add_right_cancel hsum]
  exact h.count

/-- **An action keeps the barrier closed.** -/
theorem Closed.next {size : BitVec 32} {a : Act ι} (hsize : Fintype.card ι ≤ (size - 1).toNat)
    (h : Closed size s) (ha : step s a = some s') : Closed size s' := by
  have hcard : Fintype.card ι < 2 ^ 32 := lt_of_le_of_lt hsize (size - 1).isLt
  cases a with
  | call i =>
    rw [step] at ha
    split at ha
    · rename_i hpc
      cases ha
      have hi := h.threads i
      rw [Thread.Shut, hpc] at hi
      exact h.move hi rfl
    · cases ha
  | step i =>
    have hi := h.threads i
    obtain ⟨hret, hi⟩ := hi
    rw [step] at ha
    cases hpc : (s.thread i).pc with
    | idle =>
      rw [hpc] at ha
      cases ha
    | loadState =>
      rw [hpc] at ha hi
      cases ha
      exact h.move ⟨hret, h.state, hi⟩ rfl
    | addCount c =>
      rw [hpc] at hi
      obtain ⟨hc, harr⟩ := hi
      have hlt := h.count_lt hcard harr
      have hne : s.count ≠ s.size - 1 := by
        intro he
        rw [he, h.size] at hlt
        omega
      rw [hpc, barrierWait, if_neg hne] at ha
      cases ha
      have hsum := sum_update Thread.arrivals s.thread i
        { s.thread i with pc := .spin c, arrivals := (s.thread i).arrivals + 1 }
      refine ⟨h.size, h.state, ?_, ?_⟩
      · show s.count + 1 = BitVec.ofNat 32 (∑ j, (Function.update s.thread i _ j).arrivals)
        rw [harr, Nat.add_zero] at hsum
        rw [harr, hsum, BitVec.ofNat_add, ← h.count]
        rfl
      · exact put_thread Thread.Shut ⟨hret, hc, congrArg (· + 1) harr⟩ (fun j _ => h.threads j)
    | storeCount | addState =>
      rw [hpc] at hi
      exact hi.elim
    | spin c =>
      rw [hpc] at hi
      rw [hpc, barrierWait, if_pos (h.state.trans hi.1.symm)] at ha
      cases ha
      exact h

/-- **A barrier that is made for more threads than there are**, or for none or a negative number of
them, lets nobody through: no call ever returns. -/
theorem barrier_never_opens (size : BitVec 32) (hsize : Fintype.card ι ≤ (size - 1).toNat)
    (h : Lib.Runs.Reachable step (barrierCreate size) s) (i : ι) : (s.thread i).returns = 0 := by
  have hzero : (∑ i : ι, ((barrierCreate size : State ι).thread i).arrivals) = 0 :=
    Finset.sum_const_zero
  have hcreate : Closed size (barrierCreate size : State ι) :=
    ⟨rfl, rfl, by rw [hzero]; rfl, fun _ => ⟨rfl, rfl⟩⟩
  have hclosed : Closed size s :=
    Lib.Runs.Reachable.invariant (P := Closed size) (fun hs ha => hs.next hsize ha) hcreate h
  exact (hclosed.threads i).1

/-- Two threads at a barrier for three. -/
theorem barrier_never_opens_three : ∃ s : State Bool,
    run step (barrierCreate 3) [.call false, .step false, .step false, .call true, .step true,
      .step true, .step true] = some s ∧ ∀ i, (s.thread i).returns = 0 :=
  ⟨_, rfl, barrier_never_opens 3 (by decide) ⟨[.call false, .step false, .step false, .call true,
    .step true, .step true, .step true], rfl⟩⟩

end DataStructures.Barrier
