import DataStructures.Synchronization.Barrier.Model

/-!
# The rounds of a barrier

In round `r` every thread has returned `r` times, or is about to (`Thread.At`).  Either
the threads gather, and `count` is the number of those that have arrived, or all have
arrived and the last of them is about to reset `count` or to begin the next round
(`Phase`).
-/

namespace DataStructures.Barrier

open Lib.Runs

variable {ι : Type} {s s' : State ι} {i j : ι} {t : Thread} {r : ℕ}

/-- The thread is the last of its round. -/
def Pc.last : Pc → Bool
  | .storeCount | .addState => true
  | _ => false

/-- Where a thread can be in round `r`. -/
def Thread.At (r : ℕ) (t : Thread) : Prop :=
  match t.pc with
  | .idle | .loadState => t.arrivals = r ∧ t.returns = r
  | .addCount c => c = BitVec.ofNat 32 r ∧ t.arrivals = r ∧ t.returns = r
  | .storeCount | .addState => t.arrivals = r + 1 ∧ t.returns = r
  | .spin c => c = BitVec.ofNat 32 t.returns ∧ t.arrivals = t.returns + 1 ∧
      (t.returns = r ∨ t.returns + 1 = r)

/-- The thread waits for the end of round `r`. -/
def Thread.Waits (r : ℕ) (t : Thread) : Prop :=
  t.pc = .spin (BitVec.ofNat 32 r) ∧ t.arrivals = r + 1 ∧ t.returns = r

/-- The thread has arrived in round `r`. -/
def Thread.arrived (r : ℕ) (t : Thread) : ℕ := if t.arrivals = r + 1 then 1 else 0

variable [Fintype ι]

/-- The stages of round `r`. -/
inductive Phase (r : ℕ) (s : State ι) : Prop
  /-- not all have arrived -/
  | gather : (∀ i, (s.thread i).pc.last = false) →
      s.count = BitVec.ofNat 32 (∑ i, (s.thread i).arrived r) →
      (∑ i, (s.thread i).arrived r) < Fintype.card ι → Phase r s
  /-- the last thread is about to reset `count` -/
  | reset (l : ι) : (s.thread l).pc = .storeCount → (∀ j, j ≠ l → (s.thread j).Waits r) → Phase r s
  /-- the last thread is about to begin the next round -/
  | bump (l : ι) : (s.thread l).pc = .addState → (∀ j, j ≠ l → (s.thread j).Waits r) →
      s.count = 0 → Phase r s

/-- The barrier is in round `r`. -/
structure Invariant (r : ℕ) (s : State ι) : Prop where
  size : s.size = BitVec.ofNat 32 (Fintype.card ι)
  state : s.state = BitVec.ofNat 32 r
  threads : ∀ i, (s.thread i).At r
  phase : Phase r s

theorem invariant_create (hcard : 0 < Fintype.card ι) :
    Invariant 0 (barrierCreate (BitVec.ofNat 32 (Fintype.card ι)) : State ι) := by
  have hzero : (∑ i : ι, ((barrierCreate (BitVec.ofNat 32 (Fintype.card ι)) : State ι).thread
      i).arrived 0) = 0 := Finset.sum_const_zero
  refine ⟨rfl, rfl, fun i => ⟨rfl, rfl⟩, .gather (fun i => rfl) ?_ ?_⟩
  · rw [hzero]
    rfl
  · rw [hzero]
    exact hcard

/-! ### One action -/

omit [Fintype ι] in
theorem Thread.At.waits (h : t.At r) (ha : t.arrivals = r + 1) (hl : t.pc.last = false) :
    t.Waits r := by
  rw [Thread.At] at h
  cases hpc : t.pc with
  | idle | loadState =>
    rw [hpc] at h
    have hr : t.arrivals = r := h.1
    omega
  | addCount c =>
    rw [hpc] at h
    have hr : t.arrivals = r := h.2.1
    omega
  | storeCount | addState =>
    rw [hpc] at hl
    exact Bool.noConfusion hl
  | spin c =>
    rw [hpc] at h
    obtain ⟨hc, harr, -⟩ := h
    have hr : t.returns = r := by omega
    exact ⟨by rw [hpc, hc, hr], ha, hr⟩

omit [Fintype ι] in
/-- A thread that waits in round `r` is one of the released ones of round `r + 1`. -/
theorem Thread.Waits.at_succ (h : t.Waits r) : t.At (r + 1) := by
  obtain ⟨hpc, harr, hret⟩ := h
  rw [Thread.At, hpc]
  exact ⟨by rw [hret], by rw [harr, hret], Or.inr (by rw [hret])⟩

omit [Fintype ι] in
theorem Thread.Waits.arrived_succ (h : t.Waits r) : t.arrived (r + 1) = 0 := by
  have harr := h.2.1
  exact if_neg (by omega)

/-- A thread that neither waits nor is the last one shows that the threads gather. -/
theorem Invariant.gathers (h : Invariant r s) (hlast : (s.thread i).pc.last = false)
    (hw : ¬ (s.thread i).Waits r) : (∀ i, (s.thread i).pc.last = false) ∧
      s.count = BitVec.ofNat 32 (∑ i, (s.thread i).arrived r) ∧
      (∑ i, (s.thread i).arrived r) < Fintype.card ι := by
  cases h.phase with
  | gather hl hc hn => exact ⟨hl, hc, hn⟩
  | reset l hl hothers =>
    obtain rfl | hne := eq_or_ne i l
    · rw [hl] at hlast
      exact Bool.noConfusion hlast
    · exact absurd (hothers i hne) hw
  | bump l hl hothers _ =>
    obtain rfl | hne := eq_or_ne i l
    · rw [hl] at hlast
      exact Bool.noConfusion hlast
    · exact absurd (hothers i hne) hw

omit [Fintype ι] in
theorem Thread.arrived_le_one : t.arrived r ≤ 1 := by
  rw [Thread.arrived]
  split <;> omega

/-- If only one thread is missing, the others have arrived. -/
theorem arrivals_of_one_missing (hn : (∑ i, (s.thread i).arrived r) + 1 = Fintype.card ι)
    (hi : (s.thread i).arrived r = 0) (hj : j ≠ i) : (s.thread j).arrivals = r + 1 := by
  have hsum : (∑ k, (1 - (s.thread k).arrived r)) + ∑ k, (s.thread k).arrived r =
      Fintype.card ι := by
    rw [← Finset.sum_add_distrib, ← Finset.card_univ, Finset.card_eq_sum_ones]
    exact Finset.sum_congr rfl (fun k _ => Nat.sub_add_cancel Thread.arrived_le_one)
  have hle := add_le_sum (fun t => 1 - t.arrived r) s.thread hj
  have hone : (s.thread j).arrived r ≠ 0 := by omega
  rw [Thread.arrived] at hone
  by_contra hne
  exact hone (if_neg hne)

/-- The last thread is the one that finds `size - 1`. -/
theorem ofNat_eq_sub_one_iff {n m : ℕ} (hn : n < m) (hm : m < 2 ^ 31) :
    BitVec.ofNat 32 n = BitVec.ofNat 32 m - 1 ↔ n + 1 = m := by
  rw [← BitVec.toNat_inj, BitVec.toNat_sub, BitVec.toNat_ofNat, BitVec.toNat_ofNat]
  have hone : (1 : BitVec 32).toNat = 1 := rfl
  rw [hone]
  omega

variable [DecidableEq ι]

omit [Fintype ι] in
@[simp] theorem put_thread_self : (s.put i t).thread i = t := Function.update_self ..

omit [Fintype ι] in
theorem put_thread_of_ne (hj : j ≠ i) : (s.put i t).thread j = s.thread j :=
  Function.update_of_ne hj ..

omit [Fintype ι] in
theorem put_thread (P : Thread → Prop) (ht : P t) (h : ∀ j, j ≠ i → P (s.thread j)) :
    ∀ j, P ((s.put i t).thread j) :=
  (Function.forall_update_iff s.thread (p := fun _ t => P t)).mpr ⟨ht, h⟩

/-- A thread moves without arriving while the threads gather. -/
theorem Invariant.move (h : Invariant r s) (hlast : (s.thread i).pc.last = false)
    (hw : ¬ (s.thread i).Waits r) (ht : t.At r) (htl : t.pc.last = false)
    (harr : t.arrivals = (s.thread i).arrivals) : Invariant r (s.put i t) := by
  obtain ⟨hl, hc, hn⟩ := h.gathers hlast hw
  have hsum : (∑ j, ((s.put i t).thread j).arrived r) = ∑ j, (s.thread j).arrived r := by
    have hs := sum_update (Thread.arrived r) s.thread i t
    have ha : t.arrived r = (s.thread i).arrived r := by rw [Thread.arrived, harr, Thread.arrived]
    rw [ha] at hs
    exact Nat.add_right_cancel hs
  refine ⟨h.size, h.state, put_thread (Thread.At r) ht (fun j _ => h.threads j), ?_⟩
  refine .gather (put_thread (fun t => t.pc.last = false) htl (fun j _ => hl j)) ?_ ?_
  · rw [hsum]
    exact hc
  · rw [hsum]
    exact hn

/-- A thread arrives: it is the last one or waits. -/
theorem Invariant.arrive (h : Invariant r s) (hcard : Fintype.card ι < 2 ^ 31) {c : BitVec 32}
    (hpc : (s.thread i).pc = .addCount c) (ha : barrierWait s i (.addCount c) = some s') :
    Invariant r s' := by
  have hi := h.threads i
  rw [Thread.At, hpc] at hi
  obtain ⟨hc, harr, hret⟩ := hi
  have hnw : ¬ (s.thread i).Waits r := fun hw => Pc.noConfusion (hpc.symm.trans hw.1)
  obtain ⟨hl, hcount, hn⟩ := h.gathers (by rw [hpc]; rfl) hnw
  have hi₀ : (s.thread i).arrived r = 0 := if_neg (by omega)
  have hone : ∀ pc, Thread.arrived r { s.thread i with pc := pc, arrivals := (s.thread i).arrivals + 1 } = 1 :=
    fun pc => if_pos (by rw [harr])
  rw [barrierWait] at ha
  split at ha
  · rename_i hlast
    obtain rfl := Option.some.inj ha
    rw [hcount, h.size] at hlast
    have hn' := (ofNat_eq_sub_one_iff hn hcard).mp hlast
    have hothers : ∀ j, j ≠ i → (s.thread j).Waits r :=
      fun j hj => (h.threads j).waits (arrivals_of_one_missing hn' hi₀ hj) (hl j)
    refine ⟨h.size, h.state, ?_, ?_⟩
    · exact put_thread (Thread.At r) ⟨congrArg (· + 1) harr, hret⟩ (fun j _ => h.threads j)
    · refine .reset i ?_ ?_
      · rw [State.arrive, put_thread_self]
      · intro j hj
        rw [State.arrive, put_thread_of_ne hj]
        exact hothers j hj
  · rename_i hlast
    obtain rfl := Option.some.inj ha
    rw [hcount, h.size] at hlast
    have hn' : (∑ j, (s.thread j).arrived r) + 1 ≠ Fintype.card ι :=
      fun he => hlast ((ofNat_eq_sub_one_iff hn hcard).mpr he)
    have hsum := sum_update (Thread.arrived r) s.thread i
      { s.thread i with pc := .spin c, arrivals := (s.thread i).arrivals + 1 }
    rw [hi₀, hone, Nat.add_zero] at hsum
    refine ⟨h.size, h.state, ?_, ?_⟩
    · refine put_thread (Thread.At r) ?_ (fun j _ => h.threads j)
      exact ⟨by rw [hc, hret], by rw [harr, hret], Or.inl hret⟩
    · refine .gather (put_thread (fun t => t.pc.last = false) rfl (fun j _ => hl j)) ?_ ?_
      · show _ = BitVec.ofNat 32 (∑ j, (Function.update s.thread i _ j).arrived r)
        rw [hsum, BitVec.ofNat_add, ← hcount]
        rfl
      · show (∑ j, (Function.update s.thread i _ j).arrived r) < _
        rw [hsum]
        omega

/-- The last thread resets `count`. -/
theorem Invariant.reset (h : Invariant r s) (hpc : (s.thread i).pc = .storeCount) :
    Invariant r ({ s with count := 0 }.goto i .addState) := by
  have hi := h.threads i
  rw [Thread.At, hpc] at hi
  have hothers : ∀ j, j ≠ i → (s.thread j).Waits r := by
    cases h.phase with
    | gather hl _ _ =>
      have hli := hl i
      rw [hpc] at hli
      exact Bool.noConfusion hli
    | reset l hl hothers =>
      obtain rfl | hne := eq_or_ne i l
      · exact hothers
      · exact Pc.noConfusion (hpc.symm.trans (hothers i hne).1)
    | bump l hl hothers _ =>
      obtain rfl | hne := eq_or_ne i l
      · exact Pc.noConfusion (hpc.symm.trans hl)
      · exact Pc.noConfusion (hpc.symm.trans (hothers i hne).1)
  refine ⟨h.size, h.state, put_thread (Thread.At r) hi (fun j _ => h.threads j), ?_⟩
  refine .bump i ?_ ?_ rfl
  · rw [State.goto, put_thread_self]
  · intro j hj
    rw [State.goto, put_thread_of_ne hj]
    exact hothers j hj

/-- The last thread begins the next round. -/
theorem Invariant.bump (h : Invariant r s) (hcard : 0 < Fintype.card ι)
    (hpc : (s.thread i).pc = .addState) :
    Invariant (r + 1) ({ s with state := s.state + 1 }.leave i) := by
  have hi := h.threads i
  rw [Thread.At, hpc] at hi
  obtain ⟨harr, hret⟩ := hi
  have hothers : (∀ j, j ≠ i → (s.thread j).Waits r) ∧ s.count = 0 := by
    cases h.phase with
    | gather hl _ _ =>
      have hli := hl i
      rw [hpc] at hli
      exact Bool.noConfusion hli
    | reset l hl hothers =>
      obtain rfl | hne := eq_or_ne i l
      · exact Pc.noConfusion (hpc.symm.trans hl)
      · exact Pc.noConfusion (hpc.symm.trans (hothers i hne).1)
    | bump l hl hothers hcount =>
      obtain rfl | hne := eq_or_ne i l
      · exact ⟨hothers, hcount⟩
      · exact Pc.noConfusion (hpc.symm.trans (hothers i hne).1)
  obtain ⟨hothers, hcount⟩ := hothers
  have hnone : ∀ j, Thread.arrived (r + 1) (({ s with state := s.state + 1 }.leave i).thread j) = 0 :=
    put_thread (fun t => t.arrived (r + 1) = 0) (if_neg (by rw [harr]; omega))
      (fun j hj => (hothers j hj).arrived_succ)
  have hsum : (∑ j, Thread.arrived (r + 1) (({ s with state := s.state + 1 }.leave i).thread j)) = 0 :=
    Finset.sum_eq_zero (fun j _ => hnone j)
  refine ⟨h.size, ?_, ?_, .gather ?_ ?_ ?_⟩
  · show s.state + 1 = _
    rw [h.state, BitVec.ofNat_add]
    rfl
  · exact put_thread (Thread.At (r + 1)) ⟨harr, congrArg (· + 1) hret⟩
      (fun j hj => (hothers j hj).at_succ)
  · refine put_thread (fun t => t.pc.last = false) rfl (fun j hj => ?_)
    rw [(hothers j hj).1]
    rfl
  · rw [hsum]
    exact hcount
  · rw [hsum]
    exact hcard

omit [DecidableEq ι] in
/-- A round and the next one differ modulo 2^32. -/
theorem ofNat_succ_ne (r : ℕ) : BitVec.ofNat 32 (r + 1) ≠ BitVec.ofNat 32 r := by
  intro he
  have hn := congrArg BitVec.toNat he
  rw [BitVec.toNat_ofNat, BitVec.toNat_ofNat] at hn
  omega

/-- A thread that sees another state than it has saved returns from an earlier round. -/
theorem Invariant.release (h : Invariant r s) {c : BitVec 32} (hpc : (s.thread i).pc = .spin c)
    (hne : s.state ≠ c) : Invariant r (s.leave i) := by
  have hi := h.threads i
  rw [Thread.At, hpc] at hi
  obtain ⟨hc, harr, hret⟩ := hi
  have hret : (s.thread i).returns + 1 = r := by
    refine hret.resolve_left ?_
    intro hr
    exact hne (by rw [h.state, hc, hr])
  refine h.move (by rw [hpc]; rfl) ?_ ⟨by rw [harr, hret], hret⟩ rfl rfl
  intro hw
  have hr := hw.2.2
  omega

/-- **Every action keeps the barrier in its round or begins the next one.** -/
theorem Invariant.next {a : Act ι} (h : Invariant r s) (hcard : Fintype.card ι < 2 ^ 31)
    (ha : step s a = some s') : Invariant r s' ∨ Invariant (r + 1) s' := by
  cases a with
  | call i =>
    rw [step] at ha
    split at ha
    · rename_i hpc
      obtain rfl := Option.some.inj ha
      have hi := h.threads i
      rw [Thread.At, hpc] at hi
      exact Or.inl (h.move (by rw [hpc]; rfl) (fun hw => Pc.noConfusion (hpc.symm.trans hw.1)) hi
        rfl rfl)
    · exact absurd ha (by simp)
  | step i =>
    have hi := h.threads i
    rw [Thread.At] at hi
    rw [step] at ha
    cases hpc : (s.thread i).pc with
    | idle =>
      rw [hpc] at ha
      exact absurd ha (by simp [barrierWait])
    | loadState =>
      rw [hpc] at ha hi
      obtain rfl := Option.some.inj ha
      exact Or.inl (h.move (by rw [hpc]; rfl) (fun hw => Pc.noConfusion (hpc.symm.trans hw.1))
        ⟨h.state, hi⟩ rfl rfl)
    | addCount c =>
      rw [hpc] at ha
      exact Or.inl (h.arrive hcard hpc ha)
    | storeCount =>
      rw [hpc] at ha
      obtain rfl := Option.some.inj ha
      exact Or.inl (h.reset hpc)
    | addState =>
      rw [hpc] at ha
      obtain rfl := Option.some.inj ha
      exact Or.inr (h.bump (Fintype.card_pos_iff.mpr ⟨i⟩) hpc)
    | spin c =>
      rw [hpc, barrierWait] at ha
      split at ha
      · obtain rfl := Option.some.inj ha
        exact Or.inl h
      · rename_i hne
        obtain rfl := Option.some.inj ha
        exact Or.inl (h.release hpc hne)

theorem Reachable.invariant (hpos : 1 ≤ Fintype.card ι) (hcard : Fintype.card ι < 2 ^ 31)
    (h : Reachable s) : ∃ r, Invariant r s := by
  refine Lib.Runs.Reachable.invariant (P := fun s => ∃ r, Invariant r s) ?_
    ⟨0, invariant_create hpos⟩ h
  rintro s a s' ⟨r, hr⟩ ha
  obtain hr | hr := hr.next hcard ha
  · exact ⟨r, hr⟩
  · exact ⟨r + 1, hr⟩

end DataStructures.Barrier
