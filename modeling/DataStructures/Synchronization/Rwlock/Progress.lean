import DataStructures.Lib.Progress
import DataStructures.Synchronization.Rwlock.Fairness

/-!
# The read-write lock does not lock up

`turn` is what an access makes of the two counters and of the thread that makes it; it reads
nothing else (`step_eq_turn`).

A thread is plain if it begins a lock or a trylock only while it holds nothing.  Plain threads can
all finish from wherever they are (`rwlock_no_deadlock`): those that hold the lock give it up, then
the writers and those in a trylock finish, and last the readers, who find no writer announced.
`Thread.rank` is what a thread has still to do.

A thread that begins to read again while a writer waits for it does wait for ever, and so does the
writer (`rwlock_reentrant_deadlock`).
-/

namespace DataStructures.Rwlock

open Lib.Runs

variable {ι : Type} [DecidableEq ι] {s s' : State ι} {a : Act ι} {as : List (Act ι)} {i j r w : ι}
  {t t' : Thread} {cnt cnt' writers writers' : BitVec 32} {b : Bool}

/-! ### One access -/

/-- The counters and a thread. -/
abbrev View := BitVec 32 × BitVec 32 × Thread

/-- The compare-exchange of a reader. -/
def readTurn (cnt writers : BitVec 32) (t : Thread) (spurious : Bool) (c : BitVec 32) (retry : Pc)
    (ret : Option Int) : Option View :=
  if c = BitVec.intMax 32 then none
  else if cnt = c ∧ spurious = false then
    some (c + 1, writers, { t with pc := .idle, reads := t.reads + 1, ret := ret })
  else some (cnt, writers, { t with pc := retry })

/-- What an access makes of the counters and of the thread. -/
def turn (cnt writers : BitVec 32) (t : Thread) (spurious : Bool) : Option View :=
  match t.pc with
  | .idle => none
  | .readLock .loadWriters =>
      some (cnt, writers, if writers ≠ 0 then t else { t with pc := .readLock .loadCnt })
  | .readLock .loadCnt =>
      some (cnt, writers, if cnt.toInt < 0 then t else { t with pc := .readLock (.cas cnt) })
  | .readLock (.cas c) => readTurn cnt writers t spurious c (.readLock .loadCnt) t.ret
  | .readTrylock .loadWriters =>
      some (cnt, writers, if writers ≠ 0 then { t with pc := .idle, ret := some (-1) }
        else { t with pc := .readTrylock .loadCnt })
  | .readTrylock .loadCnt =>
      some (cnt, writers, if cnt.toInt < 0 then { t with pc := .idle, ret := some (-1) }
        else { t with pc := .readTrylock (.cas cnt) })
  | .readTrylock (.cas c) => readTurn cnt writers t spurious c (.readTrylock .loadCnt) (some 0)
  | .readUnlock => some (cnt - 1, writers, { t with pc := .idle, reads := t.reads - 1 })
  | .writeLock .addWriters => some (cnt, writers + 1, { t with pc := .writeLock .cas })
  | .writeLock .cas =>
      if cnt = 0 ∧ spurious = false then
        some (-1, writers, { t with pc := .writeLock .subWriters, writes := true })
      else some (cnt, writers, t)
  | .writeLock .subWriters => some (cnt, writers - 1, { t with pc := .idle })
  | .writeTrylock .addWriters => some (cnt, writers + 1, { t with pc := .writeTrylock .loadWriters })
  | .writeTrylock .loadWriters =>
      some (cnt, writers, { t with
        pc := .writeTrylock (if writers ≠ 0 then .subWriters (-1) else .cas) })
  | .writeTrylock .cas =>
      if cnt = 0 then
        some (-1, writers, { t with pc := .writeTrylock (.subWriters 0), writes := true })
      else some (cnt, writers, { t with pc := .writeTrylock (.subWriters (-1)) })
  | .writeTrylock (.subWriters ret) => some (cnt, writers - 1, { t with pc := .idle, ret := some ret })
  | .writeUnlock => some (0, writers, { t with pc := .idle, writes := false })

/-- The state with the counters and the thread of a view. -/
def State.view (s : State ι) (i : ι) (v : View) : State ι :=
  { cnt := v.1, writers := v.2.1, thread := Function.update s.thread i v.2.2 }

@[simp] theorem view_thread_self (s : State ι) (i : ι) (v : View) :
    (s.view i v).thread i = v.2.2 := Function.update_self ..

theorem view_thread_of_ne (v : View) (h : j ≠ i) : (s.view i v).thread j = s.thread j :=
  Function.update_of_ne h ..

theorem view_self (s : State ι) (i : ι) : s.view i (s.cnt, s.writers, s.thread i) = s := by
  rw [State.view, Function.update_eq_self]

/-- A compare-exchange of a reader whose function returns as `ret` says. -/
theorem readCas_eq_turn {c : BitVec 32} {retry : Pc} {ret : Option Int} {t : Thread}
    {success : State ι → State ι} (ht : s.thread i = t)
    (h : ∀ s : State ι, (s.thread i).ret = t.ret →
      success s = s.put i { s.thread i with pc := .idle, ret := ret }) :
    readCas s i b c retry success = (readTurn s.cnt s.writers t b c retry ret).map (s.view i) := by
  subst ht
  rw [readCas, readTurn]
  split
  · rfl
  · split
    · have hret : (({ s with cnt := c + 1 }.acquireRead i).thread i).ret = (s.thread i).ret := by
        rw [State.acquireRead, put_thread_self]
      rw [h _ hret, State.acquireRead, put_put, put_thread_self]
      rfl
    · rfl

/-- **An access of a thread reads and writes the counters and the thread only.** -/
theorem step_eq_turn (s : State ι) (i : ι) (b : Bool) :
    step s (.step i b) = (turn s.cnt s.writers (s.thread i) b).map (s.view i) := by
  rw [step, turn]
  cases hpc : (s.thread i).pc with
  | idle => rfl
  | readLock p =>
    cases p with
    | loadWriters =>
      dsimp only [rwlockReadLock]
      split
      · rw [Option.map_some, view_self]
      · rfl
    | loadCnt =>
      dsimp only [rwlockReadLock]
      split
      · rw [Option.map_some, view_self]
      · rfl
    | cas c =>
      dsimp only [rwlockReadLock]
      refine readCas_eq_turn rfl (fun (u : State ι) hu => ?_)
      rw [← hu]
      rfl
  | readTrylock p =>
    cases p with
    | loadWriters | loadCnt =>
      dsimp only [rwlockReadTrylock]
      split <;> rfl
    | cas c =>
      dsimp only [rwlockReadTrylock]
      exact readCas_eq_turn rfl (fun (u : State ι) _ => rfl)
  | readUnlock =>
    dsimp only [rwlockReadUnlock, State.done, State.goto, State.releaseRead]
    rw [put_put, put_thread_self]
    rfl
  | writeLock p =>
    cases p with
    | addWriters | subWriters => rfl
    | cas =>
      dsimp only [rwlockWriteLock]
      split
      · rw [State.goto, State.setWrites, put_put, put_thread_self]
        rfl
      · rw [Option.map_some, view_self]
  | writeTrylock p =>
    cases p with
    | addWriters => rfl
    | loadWriters =>
      dsimp only [rwlockWriteTrylock]
      split <;> rfl
    | cas =>
      dsimp only [rwlockWriteTrylock]
      split
      · rw [State.goto, State.setWrites, put_put, put_thread_self]
        rfl
      · rfl
    | subWriters ret => rfl
  | writeUnlock =>
    dsimp only [rwlockWriteUnlock, State.done, State.goto, State.setWrites]
    rw [put_put, put_thread_self]
    rfl

/-! ### Plain threads -/

/-- The call is one of a lock or a trylock. -/
def Call.acquires : Call → Bool
  | .readUnlock | .writeUnlock => false
  | _ => true

/-- The thread that begins a lock or a trylock holds nothing. -/
def Act.plain (s : State ι) : Act ι → Bool
  | .call i f => !f.acquires || (s.thread i).reads == 0 && !(s.thread i).writes
  | .step _ _ => true

/-- One action of plain threads. -/
def plainStep (s : State ι) (a : Act ι) : Option (State ι) := if a.plain s then step s a else none

/-- What a plain thread can hold where it is. -/
def Thread.Plain (t : Thread) : Prop :=
  match t.pc with
  | .idle => t.reads = 0 ∨ t.reads = 1 ∧ t.writes = false
  | .readUnlock => t.reads = 1 ∧ t.writes = false
  | .writeUnlock | .writeLock .subWriters => t.reads = 0 ∧ t.writes = true
  | .writeTrylock (.subWriters _) => t.reads = 0
  | _ => t.reads = 0 ∧ t.writes = false

theorem Thread.Plain.reads_le (h : t.Plain) : t.reads ≤ 1 := by
  rw [Thread.Plain] at h
  split at h <;> omega

omit [DecidableEq ι] in
/-- A reader acquires, or starts over. -/
theorem readTurn_cases {c : BitVec 32} {retry : Pc} {ret : Option Int}
    (h : readTurn cnt writers t b c retry ret = some (cnt', writers', t')) :
    t' = { t with pc := .idle, reads := t.reads + 1, ret := ret } ∨ t' = { t with pc := retry } := by
  rw [readTurn] at h
  split at h
  · cases h
  · split at h
    · cases h
      exact Or.inl rfl
    · cases h
      exact Or.inr rfl

omit [DecidableEq ι] in
/-- **An access of a plain thread** leaves it plain. -/
theorem Thread.Plain.next (h : t.Plain) (hv : turn cnt writers t b = some (cnt', writers', t')) :
    t'.Plain := by
  have hheld := h
  cases hpc : t.pc with
  | idle =>
    rw [turn, hpc] at hv
    cases hv
  | readLock p | readTrylock p =>
    cases p
    all_goals
      rw [Thread.Plain, hpc] at hheld
      rw [turn, hpc] at hv
    case loadWriters | loadCnt =>
      cases hv
      split
      · first | exact h | exact Or.inl hheld.1
      · exact hheld
    case cas c =>
      obtain rfl | rfl := readTurn_cases hv
      · exact Or.inr ⟨congrArg (· + 1) hheld.1, hheld.2⟩
      · exact hheld
  | readUnlock =>
    rw [Thread.Plain, hpc] at hheld
    rw [turn, hpc] at hv
    cases hv
    exact Or.inl (congrArg (· - 1) hheld.1)
  | writeLock p =>
    cases p
    all_goals
      rw [Thread.Plain, hpc] at hheld
      rw [turn, hpc] at hv
    case addWriters =>
      cases hv
      exact hheld
    case cas =>
      dsimp only at hv
      split at hv
      · cases hv
        exact ⟨hheld.1, rfl⟩
      · cases hv
        exact h
    case subWriters =>
      cases hv
      exact Or.inl hheld.1
  | writeTrylock p =>
    cases p
    all_goals
      rw [Thread.Plain, hpc] at hheld
      rw [turn, hpc] at hv
    case addWriters =>
      cases hv
      exact hheld
    case loadWriters =>
      cases hv
      by_cases hw : writers = 0
      · rw [if_neg (not_not.mpr hw)]
        exact hheld
      · rw [if_pos hw]
        exact hheld.1
    case cas =>
      dsimp only at hv
      split at hv
      · cases hv
        exact hheld.1
      · cases hv
        exact hheld.1
    case subWriters ret =>
      cases hv
      exact Or.inl hheld
  | writeUnlock =>
    rw [Thread.Plain, hpc] at hheld
    rw [turn, hpc] at hv
    cases hv
    exact Or.inl hheld.1

/-- The thread is about to compare `cnt` with the `c` it has read. -/
def Pc.compares (c : BitVec 32) (pc : Pc) : Prop := pc = .readLock (.cas c) ∨ pc = .readTrylock (.cas c)

/-- The thread is about to read `cnt`. -/
def Pc.readsCnt (pc : Pc) : Prop := pc = .readLock .loadCnt ∨ pc = .readTrylock .loadCnt

omit [DecidableEq ι] in
/-- What a reader compares is what it has just read. -/
theorem turn_compares {c : BitVec 32} (hv : turn cnt writers t b = some (cnt', writers', t'))
    (hc : t'.pc.compares c) : t.pc.readsCnt ∧ c = cnt := by
  rw [turn] at hv
  split at hv
  case h_4 | h_7 => obtain rfl | rfl := readTurn_cases hv <;> simp [Pc.compares] at hc
  all_goals
    rename_i hpc
  case h_3 | h_6 =>
    cases hv
    split at hc
    · simp [Pc.compares, hpc] at hc
    · simp only [Pc.compares, Pc.readLock.injEq, ReadPc.cas.injEq, reduceCtorEq, or_false,
        Pc.readTrylock.injEq, false_or] at hc
      exact ⟨by simp [Pc.readsCnt, hpc], hc.symm⟩
  all_goals
    try split at hv
    all_goals cases hv
    all_goals
      try split at hc
      all_goals simp [Pc.compares, hpc] at hc

section Runs

variable [Fintype ι]

/-- Plain threads, with room for another reader wherever one has read `cnt`. -/
structure PlainInvariant (s : State ι) : Prop where
  counters : Invariant s
  plain : ∀ i, (s.thread i).Plain
  room : ∀ i c, (s.thread i).pc.compares c → c.toInt < Fintype.card ι

omit [DecidableEq ι] in
theorem plainInvariant_create : PlainInvariant (rwlockCreate : State ι) :=
  ⟨invariant_create, fun _ => Or.inl rfl, fun _ _ h => by simp [rwlockCreate, Pc.compares] at h⟩

omit [DecidableEq ι] in
/-- While a plain thread holds nothing, not all threads hold the read lock. -/
theorem PlainInvariant.cnt_lt (h : PlainInvariant s) (hi : (s.thread i).reads = 0) :
    s.cnt.toInt < Fintype.card ι := by
  have hlt : readers s < ∑ _j : ι, 1 := by
    refine Finset.sum_lt_sum (fun j _ => (h.plain j).reads_le) ⟨i, Finset.mem_univ i, ?_⟩
    rw [hi]
    exact Nat.zero_lt_one
  rw [← Finset.card_eq_sum_ones, Finset.card_univ] at hlt
  rw [h.counters.toInt_cnt]
  omega

/-- A plain thread begins a call. -/
theorem Thread.Plain.call {f : Call} (h : t.Plain) (hpc : t.pc = .idle) (hf : f.allowed t = true)
    (hplain : (!f.acquires || t.reads == 0 && !t.writes) = true) :
    Thread.Plain { t with pc := f.entry } := by
  rw [Thread.Plain, hpc] at h
  cases f with
  | readLock | readTrylock | writeLock | writeTrylock =>
    simp only [Call.acquires, Bool.not_true, Bool.false_or, Bool.and_eq_true, beq_iff_eq,
      Bool.not_eq_true'] at hplain
    exact hplain
  | readUnlock =>
    have hreads : 0 < t.reads := decide_eq_true_iff.mp hf
    obtain h0 | h1 := h
    · omega
    · exact h1
  | writeUnlock =>
    have hwrites : t.writes = true := hf
    obtain h0 | ⟨-, h1⟩ := h
    · exact ⟨h0, hwrites⟩
    · rw [hwrites] at h1
      cases h1

/-- **An action of plain threads** keeps the invariant. -/
theorem PlainInvariant.next (h : PlainInvariant s) (ha : plainStep s a = some s') :
    PlainInvariant s' := by
  rw [plainStep] at ha
  split at ha
  swap
  · cases ha
  rename_i hplain
  have hcounters := h.counters.next ha
  cases a with
  | call i f =>
    rw [step] at ha
    split at ha
    swap
    · cases ha
    rename_i hc
    cases ha
    refine ⟨hcounters, fun j => ?_, fun j c hj => ?_⟩
    · obtain rfl | hne := eq_or_ne j i
      · rw [State.goto, put_thread_self]
        exact (h.plain j).call hc.1 hc.2 hplain
      · rw [State.goto, put_thread_of_ne hne]
        exact h.plain j
    · obtain rfl | hne := eq_or_ne j i
      · rw [State.goto, put_thread_self] at hj
        cases f <;> simp [Call.entry, Pc.compares] at hj
      · rw [State.goto, put_thread_of_ne hne] at hj
        exact h.room j c hj
  | step i b =>
    rw [step_eq_turn] at ha
    obtain ⟨⟨cnt', writers', t'⟩, hv, rfl⟩ := Option.map_eq_some_iff.mp ha
    refine ⟨hcounters, fun j => ?_, fun j c hj => ?_⟩
    · obtain rfl | hne := eq_or_ne j i
      · rw [view_thread_self]
        exact (h.plain j).next hv
      · rw [view_thread_of_ne _ hne]
        exact h.plain j
    · obtain rfl | hne := eq_or_ne j i
      · rw [view_thread_self] at hj
        obtain ⟨hreads, rfl⟩ := turn_compares hv hj
        have hheld := h.plain j
        obtain hpc | hpc := hreads
        all_goals
          rw [Thread.Plain, hpc] at hheld
          exact h.cnt_lt hheld.1
      · rw [view_thread_of_ne _ hne] at hj
        exact h.room j c hj

end Runs

/-! ### What is left to do -/

/-- How far a thread is from having finished its call and given up what it holds. -/
def Thread.rank (t : Thread) : ℕ :=
  match t.pc with
  | .idle => 2 * (t.reads + t.writes.toNat)
  | .readUnlock | .writeUnlock => 1
  | .writeLock .subWriters | .writeTrylock (.subWriters _) => 3
  | .readLock (.cas c) | .readTrylock (.cas c) => if c = 0 then 3 else 5
  | .readLock .loadCnt | .readTrylock .loadCnt | .writeLock .cas | .writeTrylock .cas => 4
  | .writeLock .addWriters | .writeTrylock .loadWriters => 5
  | .readLock .loadWriters | .readTrylock .loadWriters | .writeTrylock .addWriters => 6

/-- The thread holds the lock. -/
def Thread.holds (t : Thread) : Prop := 0 < t.reads ∨ t.writes = true

/-- The next access brings the thread forward. -/
def Advances (cnt writers : BitVec 32) (t : Thread) : Prop :=
  ∃ v, turn cnt writers t false = some v ∧ v.2.2.rank < t.rank

omit [DecidableEq ι] in
theorem not_holds (h : t.reads = 0 ∧ t.writes = false) : ¬ t.holds := by
  simp [Thread.holds, h.1, h.2]

omit [DecidableEq ι] in
/-- **A thread that holds the lock** and is in a call is about to return. -/
theorem Thread.Plain.advances_of_holds (h : t.Plain) (hheld : t.holds) (hpc : t.pc ≠ .idle) :
    Advances cnt writers t := by
  cases hp : t.pc with
  | idle => exact absurd hp hpc
  | readLock p | readTrylock p =>
    rw [Thread.Plain, hp] at h
    exact absurd hheld (not_holds h)
  | readUnlock =>
    rw [Thread.Plain, hp] at h
    exact ⟨_, by rw [turn, hp], by simp [Thread.rank, hp, h.1, h.2]⟩
  | writeLock p =>
    rw [Thread.Plain, hp] at h
    cases p with
    | addWriters | cas => exact absurd hheld (not_holds h)
    | subWriters => exact ⟨_, by rw [turn, hp], by simp [Thread.rank, hp, h.1, h.2]⟩
  | writeTrylock p =>
    rw [Thread.Plain, hp] at h
    cases p with
    | addWriters | loadWriters | cas => exact absurd hheld (not_holds h)
    | subWriters ret =>
      refine ⟨_, by rw [turn, hp], ?_⟩
      cases t.writes <;> simp [Thread.rank, hp, h]
  | writeUnlock =>
    rw [Thread.Plain, hp] at h
    exact ⟨_, by rw [turn, hp], by simp [Thread.rank, hp, h.1]⟩

omit [DecidableEq ι] in
/-- The compare-exchange of a reader that finds no holder succeeds, or has to be made again with
what `cnt` is then. -/
theorem readTurn_rank {c : BitVec 32} {retry : Pc} {ret : Option Int} (hreads : t.reads = 0)
    (hwrites : t.writes = false) (hc : c ≠ BitVec.intMax 32) (hretry : retry.readsCnt) :
    ∃ v, readTurn 0 writers t false c retry ret = some v ∧ v.2.2.rank < if c = 0 then 3 else 5 := by
  rw [readTurn, if_neg hc]
  by_cases h0 : c = 0
  · rw [if_pos ⟨h0.symm, rfl⟩, if_pos h0]
    exact ⟨_, rfl, by simp [Thread.rank, hreads, hwrites]⟩
  · rw [if_neg (fun h => h0 h.1.symm), if_neg h0]
    obtain rfl | rfl := hretry
    all_goals exact ⟨_, rfl, by simp [Thread.rank]⟩

omit [DecidableEq ι] in
/-- **A thread that holds nothing** goes on when nobody holds the lock. -/
theorem Thread.Plain.advances_of_free (h : t.Plain) (hheld : ¬ t.holds) (hpc : t.pc ≠ .idle)
    (hroom : ∀ c, t.pc.compares c → c ≠ BitVec.intMax 32)
    (hw : t.pc = .readLock .loadWriters → writers = 0) : Advances 0 writers t := by
  simp only [Thread.holds, not_or, Nat.not_lt, Nat.le_zero, Bool.not_eq_true] at hheld
  obtain ⟨hreads, hwrites⟩ := hheld
  cases hp : t.pc with
  | idle => exact absurd hp hpc
  | readLock p =>
    cases p with
    | loadWriters => exact ⟨_, by rw [turn, hp], by simp [hw hp, Thread.rank, hp]⟩
    | loadCnt => exact ⟨_, by rw [turn, hp], by simp [Thread.rank, hp]⟩
    | cas c =>
      rw [Advances, turn, Thread.rank, hp]
      exact readTurn_rank hreads hwrites (hroom c (Or.inl hp)) (Or.inl rfl)
  | readTrylock p =>
    cases p with
    | loadWriters =>
      refine ⟨_, by rw [turn, hp], ?_⟩
      dsimp only
      split <;> simp [Thread.rank, hp, hreads, hwrites]
    | loadCnt => exact ⟨_, by rw [turn, hp], by simp [Thread.rank, hp]⟩
    | cas c =>
      rw [Advances, turn, Thread.rank, hp]
      exact readTurn_rank hreads hwrites (hroom c (Or.inr hp)) (Or.inr rfl)
  | readUnlock =>
    rw [Thread.Plain, hp] at h
    omega
  | writeLock p =>
    cases p with
    | addWriters => exact ⟨_, by rw [turn, hp], by simp [Thread.rank, hp]⟩
    | cas =>
      refine ⟨_, by rw [turn, hp]; exact if_pos ⟨rfl, rfl⟩, ?_⟩
      simp [Thread.rank, hp]
    | subWriters =>
      rw [Thread.Plain, hp] at h
      rw [hwrites] at h
      exact Bool.noConfusion h.2
  | writeTrylock p =>
    cases p with
    | addWriters => exact ⟨_, by rw [turn, hp], by simp [Thread.rank, hp]⟩
    | loadWriters =>
      refine ⟨_, by rw [turn, hp], ?_⟩
      by_cases h0 : writers ≠ 0
      · simp only [if_pos h0, Thread.rank, hp]
        decide
      · simp only [if_neg h0, Thread.rank, hp]
        decide
    | cas =>
      refine ⟨_, by rw [turn, hp]; exact if_pos rfl, ?_⟩
      simp [Thread.rank, hp]
    | subWriters ret =>
      refine ⟨_, by rw [turn, hp], ?_⟩
      simp [Thread.rank, hp, hreads, hwrites]
  | writeUnlock =>
    rw [Thread.Plain, hp] at h
    rw [hwrites] at h
    exact Bool.noConfusion h.2

/-! ### No deadlock -/

/-- An action that begins no lock and no trylock. -/
def Act.finishes : Act ι → Prop
  | .call _ f => f.acquires = false
  | .step _ _ => True

section Runs

variable [Fintype ι]

/-- Nobody is in a call or holds the lock. -/
def Released (s : State ι) : Prop := ∀ i, (s.thread i).pc = .idle ∧ ¬ (s.thread i).holds

/-- What all threads have still to do. -/
def rank (s : State ι) : ℕ := ∑ i, (s.thread i).rank

/-- A thread that advances makes an action that finishes. -/
theorem PlainInvariant.step_of_advances (h : PlainInvariant s)
    (hi : Advances s.cnt s.writers (s.thread i)) : ∃ a s', a.finishes ∧ plainStep s a = some s' ∧
      PlainInvariant s' ∧ rank s' < rank s := by
  obtain ⟨v, hv, hlt⟩ := hi
  have ha : plainStep s (.step i false) = some (s.view i v) := by
    rw [plainStep, Act.plain, if_pos rfl, step_eq_turn, hv]
    rfl
  exact ⟨.step i false, _, trivial, ha, h.next ha, sum_update_lt Thread.rank s.thread i v.2.2 hlt⟩

/-- A thread that holds the lock gives it up. -/
theorem PlainInvariant.step_of_call (h : PlainInvariant s) {f : Call} (hpc : (s.thread i).pc = .idle)
    (hf : f.allowed (s.thread i) = true) (hacq : f.acquires = false)
    (hrank : Thread.rank { s.thread i with pc := f.entry } < (s.thread i).rank) :
    ∃ a s', a.finishes ∧ plainStep s a = some s' ∧ PlainInvariant s' ∧ rank s' < rank s := by
  have ha : plainStep s (.call i f) = some (s.goto i f.entry) := by
    rw [plainStep, Act.plain, hacq, Bool.not_false, Bool.true_or, if_pos rfl, step, if_pos ⟨hpc, hf⟩]
  exact ⟨.call i f, _, hacq, ha, h.next ha, sum_update_lt Thread.rank s.thread i _ hrank⟩

/-- **Where somebody is in a call or holds the lock, an action that finishes brings it
forward.** -/
theorem PlainInvariant.exists_step (hcard : Fintype.card ι < 2 ^ 31) (h : PlainInvariant s)
    (hn : ¬ Released s) : ∃ a s', a.finishes ∧ plainStep s a = some s' ∧ PlainInvariant s' ∧
      rank s' < rank s := by
  by_cases hheld : ∃ i, (s.thread i).holds
  · obtain ⟨i, hi⟩ := hheld
    by_cases hpc : (s.thread i).pc = .idle
    · have hplain := h.plain i
      rw [Thread.Plain, hpc] at hplain
      obtain hreads | hwrites := hi
      · refine h.step_of_call (f := .readUnlock) hpc (decide_eq_true hreads) rfl ?_
        rw [Thread.rank, Thread.rank, hpc]
        show 1 < 2 * ((s.thread i).reads + (s.thread i).writes.toNat)
        omega
      · refine h.step_of_call (f := .writeUnlock) hpc hwrites rfl ?_
        rw [Thread.rank, Thread.rank, hpc]
        show 1 < 2 * ((s.thread i).reads + (s.thread i).writes.toNat)
        rw [hwrites]
        show 1 < 2 * ((s.thread i).reads + 1)
        omega
    · exact h.step_of_advances ((h.plain i).advances_of_holds hi hpc)
  -- nobody holds the lock, so `cnt` is 0
  · have hfree : ∀ i, (s.thread i).reads = 0 ∧ (s.thread i).writes = false := by
      intro i
      have hi : ¬ (s.thread i).holds := fun hi => hheld ⟨i, hi⟩
      simpa [Thread.holds] using hi
    have hcnt : s.cnt = 0 := by
      have hr : readers s = 0 := Finset.sum_eq_zero (fun i _ => (hfree i).1)
      rw [h.counters.cnt, hr, holders_eq_zero (fun i => (hfree i).2)]
      rfl
    have hroom : ∀ i c, (s.thread i).pc.compares c → c ≠ BitVec.intMax 32 := by
      rintro i c hc rfl
      have hlt := h.room i _ hc
      have hmax : (BitVec.intMax 32).toInt = 2 ^ 31 - 1 := rfl
      omega
    have hgo : ∀ i, (s.thread i).pc ≠ .idle →
        ((s.thread i).pc = .readLock .loadWriters → s.writers = 0) →
        ∃ a s', a.finishes ∧ plainStep s a = some s' ∧ PlainInvariant s' ∧ rank s' < rank s := by
      intro i hpc hw
      refine h.step_of_advances (i := i) ?_
      rw [hcnt]
      exact (h.plain i).advances_of_free (fun hi => hheld ⟨i, hi⟩) hpc (hroom i) hw
    by_cases hother : ∃ i, (s.thread i).pc ≠ .idle ∧ (s.thread i).pc ≠ .readLock .loadWriters
    · obtain ⟨i, hidle, hload⟩ := hother
      exact hgo i hidle (fun he => absurd he hload)
    -- the others have finished, so no writer is announced
    · have hann : announced s = 0 := by
        refine Finset.sum_eq_zero (fun i _ => ?_)
        by_cases hidle : (s.thread i).pc = .idle
        · rw [hidle]
          rfl
        · rw [not_not.mp (fun hload => hother ⟨i, hidle, hload⟩)]
          rfl
      obtain ⟨i, hi⟩ := not_forall.mp hn
      have hpc : (s.thread i).pc ≠ .idle := fun hpc => hi ⟨hpc, fun hheld' => hheld ⟨i, hheld'⟩⟩
      refine hgo i hpc (fun _ => ?_)
      rw [h.counters.writers, hann]
      rfl

/-- **No deadlock.**  From every state plain threads reach, some run in which no lock and no trylock
begins ends with all of them out of their calls, the lock free and no writer announced. -/
theorem rwlock_no_deadlock (hcard : Fintype.card ι < 2 ^ 31)
    (h : Lib.Runs.Reachable plainStep rwlockCreate s) : CanReach plainStep Act.finishes
      (fun s' => (∀ i, (s'.thread i).pc = .idle ∧ (s'.thread i).reads = 0 ∧
        (s'.thread i).writes = false) ∧ s'.cnt = 0 ∧ s'.writers = 0) s := by
  have hinv : PlainInvariant s :=
    Lib.Runs.Reachable.invariant PlainInvariant.next plainInvariant_create h
  obtain ⟨as, s', has, hr, hs', hrel⟩ :=
    canReach_of_measure rank (fun _ hs hn => hs.exists_step hcard hn) hinv
  have hfree : ∀ i, (s'.thread i).reads = 0 ∧ (s'.thread i).writes = false := by
    intro i
    simpa [Thread.holds] using (hrel i).2
  refine ⟨as, s', has, hr, fun i => ⟨(hrel i).1, hfree i⟩, ?_, ?_⟩
  · have hzero : readers s' = 0 := Finset.sum_eq_zero (fun i _ => (hfree i).1)
    rw [hs'.counters.cnt, hzero, holders_eq_zero (fun i => (hfree i).2)]
    rfl
  · have hann : announced s' = 0 := by
      refine Finset.sum_eq_zero (fun i _ => ?_)
      rw [(hrel i).1]
      rfl
    rw [hs'.counters.writers, hann]
    rfl

/-- A reader holds the lock, a writer waits for it, and another reader for the writer. -/
theorem rwlock_no_deadlock_queue : ∃ s : State (Fin 3), run plainStep rwlockCreate
      [.call 0 .readLock, .step 0 false, .step 0 false, .step 0 false, .call 1 .writeLock,
        .step 1 false, .call 2 .readLock] = some s ∧
    CanReach plainStep Act.finishes (fun s' => (∀ i, (s'.thread i).pc = .idle ∧
      (s'.thread i).reads = 0 ∧ (s'.thread i).writes = false) ∧ s'.cnt = 0 ∧ s'.writers = 0) s :=
  ⟨_, rfl, rwlock_no_deadlock (by decide)
    ⟨[.call 0 .readLock, .step 0 false, .step 0 false, .step 0 false, .call 1 .writeLock,
      .step 1 false, .call 2 .readLock], rfl⟩⟩

/-! ### Reading again -/

/-- The reader `r` holds the lock and begins to read again, and the writer `w` waits. -/
structure Entangled (r w : ι) (s : State ι) : Prop where
  counters : Invariant s
  reads : 0 < (s.thread r).reads
  reader : (s.thread r).pc = .readLock .loadWriters
  writer : Waiting w s

omit [DecidableEq ι] in
theorem Entangled.cnt_ne_zero (h : Entangled r w s) : s.cnt ≠ 0 := by
  intro hzero
  have hcnt := h.counters.toInt_cnt
  have hle := le_sum Thread.reads s.thread r
  have hpos := h.reads
  have halone := h.counters.alone
  rw [hzero] at hcnt
  have hz : (0 : BitVec 32).toInt = 0 := rfl
  rw [readers] at *
  omega

omit [Fintype ι] in
/-- An action of another thread leaves a thread as it is. -/
theorem step_thread_ne (hj : j ≠ a.thread) (ha : step s a = some s') : s'.thread j = s.thread j := by
  cases a with
  | call i f =>
    rw [step] at ha
    split at ha
    · cases ha
      exact put_thread_of_ne hj
    · cases ha
  | step i b =>
    rw [step_eq_turn] at ha
    obtain ⟨v, -, rfl⟩ := Option.map_eq_some_iff.mp ha
    exact view_thread_of_ne v hj

omit [Fintype ι] in
/-- A thread that is in a call and whose access changes nothing stays where it is. -/
theorem step_thread_eq (hpc : (s.thread j).pc ≠ .idle)
    (hsame : ∀ b, turn s.cnt s.writers (s.thread j) b = some (s.cnt, s.writers, s.thread j))
    (ha : step s a = some s') : s'.thread j = s.thread j := by
  by_cases hj : j = a.thread
  · cases a with
    | call i f =>
      obtain rfl : j = i := hj
      rw [step, if_neg (fun hc => hpc hc.1)] at ha
      cases ha
    | step i b =>
      obtain rfl : j = i := hj
      rw [step_eq_turn, hsame, Option.map_some, view_self] at ha
      cases ha
      rfl
  · exact step_thread_ne hj ha

/-- **No action helps** a reader that reads again and the writer it waits for. -/
theorem Entangled.next (hcard : Fintype.card ι < 2 ^ 32) (h : Entangled r w s)
    (ha : step s a = some s') :
    Entangled r w s' ∧ s'.thread r = s.thread r ∧ s'.thread w = s.thread w := by
  have hwriter : (s.thread w).pc = .writeLock .cas := h.writer
  have hwriters : s.writers ≠ 0 :=
    h.counters.writers_ne_zero hcard (w := w) (by rw [hwriter]; rfl)
  have hr : s'.thread r = s.thread r := by
    refine step_thread_eq (by rw [h.reader]; exact Pc.noConfusion) (fun b => ?_) ha
    rw [turn, h.reader]
    exact congrArg some (congrArg _ (congrArg _ (if_pos hwriters)))
  have hw : s'.thread w = s.thread w := by
    refine step_thread_eq (by rw [hwriter]; exact Pc.noConfusion) (fun b => ?_) ha
    rw [turn, hwriter]
    exact if_neg (fun hc => h.cnt_ne_zero hc.1)
  refine ⟨⟨h.counters.next ha, ?_, ?_, ?_⟩, hr, hw⟩
  · rw [hr]
    exact h.reads
  · rw [hr]
    exact h.reader
  · rw [Waiting, hw]
    exact hwriter

/-- **A thread that holds the read lock and reads again while a writer waits** never gets any
further, whatever the other threads do, and neither does the writer; nor does anybody get the write
lock again. -/
theorem rwlock_reentrant_deadlock (hcard : Fintype.card ι < 2 ^ 32) (h : Reachable s)
    (hreads : 0 < (s.thread r).reads) (hreader : (s.thread r).pc = .readLock .loadWriters)
    (hwriter : Waiting w s) (hr : run step s as = some s') :
    s'.thread r = s.thread r ∧ s'.thread w = s.thread w ∧ ∀ i, (s'.thread i).writes = false := by
  have hstays : Entangled r w s' ∧ s'.thread r = s.thread r ∧ s'.thread w = s.thread w :=
    run_invariant (P := fun u => Entangled r w u ∧ u.thread r = s.thread r ∧
        u.thread w = s.thread w)
      (fun hu ha => by
        obtain ⟨hent, hru, hwu⟩ := hu
        obtain ⟨hent', hr', hw'⟩ := hent.next hcard ha
        exact ⟨hent', hr'.trans hru, hw'.trans hwu⟩)
      ⟨⟨h.invariant, hreads, hreader, hwriter⟩, rfl, rfl⟩ hr
  refine ⟨hstays.2.1, hstays.2.2, fun i => ?_⟩
  by_contra hwrites
  have hzero := hstays.1.counters.reads_eq_zero (j := r) (eq_true_of_ne_false hwrites)
  have hpos := hstays.1.reads
  omega

/-- A reader reads, a writer announces itself, and the reader begins to read again. -/
theorem rwlock_reentrant_deadlock_two : ∃ s : State Bool, run step rwlockCreate
      [.call false .readLock, .step false false, .step false false, .step false false,
        .call true .writeLock, .step true false, .call false .readLock] = some s ∧
    ∀ as s', run step s as = some s' → s'.thread false = s.thread false ∧
      s'.thread true = s.thread true ∧ ∀ i, (s'.thread i).writes = false :=
  ⟨_, rfl, fun _ _ => rwlock_reentrant_deadlock (by decide)
    ⟨[.call false .readLock, .step false false, .step false false, .step false false,
      .call true .writeLock, .step true false, .call false .readLock], rfl⟩ (by decide) rfl rfl⟩

end Runs

end DataStructures.Rwlock
