import DataStructures.Lib.Floyd
import DataStructures.List.Slist
import Mathlib.Order.Lattice.Nat

/-!
# Loops in a singly linked list

`slist_has_loop` and `slist_loop_start` on any memory, the chain from the head being one that no
dangling pointer ends: a chain that ends with NULL, or one that goes back into itself anywhere.

`follow h head` is the chain.  `meet_spec` says where the slow and the fast pointer stop,
`moveBoth_spec` where the two pointers of the second loop do, and `slistLoop_correct` what the
functions return.
-/

namespace DataStructures.Slist

open Lib Lib.Floyd

variable {D : Type}

/-! ### The functions -/

/-- The loop of the slow and the fast pointer: where they meet, if they do. -/
def meet (h : Heap D) : Nat → Ptr → Ptr → Option (Option Ptr)
  | 0, _, _ => none
  | rounds + 1, slow, fast => do
      if slow.isNone || fast.isNone then return none
      let fastNode ← h.mem.load fast
      if fastNode.next.isNone then return none
      let slowNode ← h.mem.load slow
      let fastNext ← h.mem.load fastNode.next
      if slowNode.next = fastNext.next then return some slowNode.next
      meet h rounds slowNode.next fastNext.next

/-- `slist_has_loop`. -/
def slistHasLoop (h : Heap D) (head : Ptr) : Option Bool := do
  if head.isNone then return false
  let met ← meet h h.rounds head head
  return met.isSome

/-- The loop that moves both pointers one node at a time until they are the same. -/
def moveBoth (h : Heap D) : Nat → Ptr → Ptr → Option Ptr
  | 0, _, _ => none
  | rounds + 1, slow, fast => do
      if slow = fast then return slow
      let slowNode ← h.mem.load slow
      let fastNode ← h.mem.load fast
      moveBoth h rounds slowNode.next fastNode.next

/-- `slist_loop_start`. -/
def slistLoopStart (h : Heap D) (head : Ptr) : Option Ptr := do
  if head.isNone then return none
  match ← meet h h.rounds head head with
  | none => return none
  | some fast => moveBoth h h.rounds head fast

/-! ### The chain -/

/-- Where `k` steps along `next` lead. -/
def follow (h : Heap D) (head : Ptr) : Nat → Ptr
  | 0 => head
  | k + 1 => (h.mem.load (follow h head k)).bind SlistT.next

/-- No pointer of the chain dangles. -/
def Linked (h : Heap D) (head : Ptr) : Prop :=
  ∀ k a, follow h head k = some a → (h.mem.cells a).isSome

variable {h : Heap D} {head : Ptr} {k m n K : Nat}

theorem follow_succ : follow h head (k + 1) = (h.mem.load (follow h head k)).bind SlistT.next := rfl

theorem stepped : Stepped (follow h head) := by
  intro i j hij
  rw [follow_succ, follow_succ, hij]

/-- After NULL there is only NULL. -/
theorem follow_none (hn : follow h head n = none) (hnm : n ≤ m) : follow h head m = none := by
  induction m, hnm using Nat.le_induction with
  | base => exact hn
  | succ m _ ih =>
    rw [follow_succ, ih]
    rfl

/-- Following a pointer of the chain. -/
theorem Linked.load (hl : Linked h head) (hk : follow h head k ≠ none) :
    ∃ node, h.mem.load (follow h head k) = some node ∧ node.next = follow h head (k + 1) := by
  obtain ⟨a, ha⟩ := Option.ne_none_iff_exists'.mp hk
  obtain ⟨node, hnode⟩ := Option.isSome_iff_exists.mp (hl k a ha)
  have hload : h.mem.load (follow h head k) = some node := by
    rw [ha]
    exact hnode
  refine ⟨node, hload, ?_⟩
  rw [follow_succ, hload]
  rfl

/-- The chain ends with NULL, or comes back, after no more steps than there are addresses. -/
theorem Linked.exists_meeting (hl : Linked h head) (hhead : head ≠ none) :
    ∃ K, 0 < K ∧ K ≤ h.mem.next ∧ follow h head K = follow h head (2 * K) := by
  -- every entry that is not NULL is one of the addresses
  have hlt : ∀ {k a}, follow h head k = some a → a < h.mem.next := fun ha => by
    obtain ⟨node, hnode⟩ := Option.isSome_iff_exists.mp (hl _ _ ha)
    exact Memory.lt_next hnode
  by_cases hnull : ∃ n ≤ h.mem.next, follow h head n = none
  · obtain ⟨n, hn, hnone⟩ := hnull
    have hpos : 0 < n := by
      rcases Nat.eq_zero_or_pos n with rfl | hpos
      · exact absurd hnone hhead
      · exact hpos
    exact ⟨n, hpos, hn, by rw [hnone, follow_none hnone (by omega)]⟩
  · push Not at hnull
    have haddr : ∀ k ≤ h.mem.next, ∃ a, follow h head k = some a := fun k hk =>
      Option.ne_none_iff_exists'.mp (hnull k hk)
    obtain ⟨i, j, hij, hj, heq⟩ := exists_repeat (y := fun k => (follow h head k).getD 0)
      (n := h.mem.next) (fun k hk => by
        obtain ⟨a, ha⟩ := haddr k hk
        rw [ha]
        exact hlt ha)
    obtain ⟨a, ha⟩ := haddr i (by omega)
    obtain ⟨b, hb⟩ := haddr j hj
    have hsame : follow h head i = follow h head j := by
      rw [ha, hb] at heq ⊢
      exact congrArg some heq
    obtain ⟨K, hK, hKj, hmeet⟩ := stepped.exists_meeting hij hsame
    exact ⟨K, hK, hKj.trans hj, hmeet⟩

/-- A chain that comes back never reaches NULL. -/
theorem follow_ne_none (hK : 0 < K) (hx : follow h head K = follow h head (2 * K))
    (hne : follow h head K ≠ none) (k : Nat) : follow h head k ≠ none := by
  intro hk
  have hround : follow h head (K + k * K) = follow h head K :=
    stepped.add_mul (by rw [← Nat.two_mul, hx]) k
  have hle : k ≤ k * K := Nat.le_mul_of_pos_right k hK
  rw [follow_none hk (by omega)] at hround
  exact hne hround.symm

/-! ### The loops -/

/-- The first place at which the pointers are the same after a step. -/
abbrev Meeting (h : Heap D) (head : Ptr) (K : Nat) : Prop :=
  IsLeast {K | 0 < K ∧ follow h head K = follow h head (2 * K)} K

/-- **The slow and the fast pointer** find NULL, or meet at the first place where they can. -/
theorem meet_spec (hl : Linked h head) (hK : Meeting h head K) (rounds : Nat) (hk : k < K)
    (hr : K ≤ rounds + k) :
    (meet h rounds (follow h head k) (follow h head (2 * k)) = some none ∧
        ∃ n, follow h head n = none) ∨
      (meet h rounds (follow h head k) (follow h head (2 * k)) = some (some (follow h head K)) ∧
        follow h head K ≠ none) := by
  induction rounds generalizing k with
  | zero => omega
  | succ rounds ih =>
    rw [meet]
    by_cases hfast : follow h head (2 * k) = none
    · exact Or.inl ⟨by simp [hfast], _, hfast⟩
    have hslow : follow h head k ≠ none := fun hs => hfast (follow_none hs (by omega))
    obtain ⟨node, hload, hnext⟩ := hl.load hfast
    by_cases hend : follow h head (2 * k + 1) = none
    · exact Or.inl ⟨by simp [hfast, hslow, hload, hnext, hend], _, hend⟩
    obtain ⟨slowNode, hsload, hsnext⟩ := hl.load hslow
    obtain ⟨node', hload', hnext'⟩ := hl.load hend
    have htwo : follow h head (2 * k + 1 + 1) = follow h head (2 * (k + 1)) := rfl
    by_cases hsame : follow h head (k + 1) = follow h head (2 * (k + 1))
    · have hKk : K = k + 1 := Nat.le_antisymm (hK.2 ⟨Nat.succ_pos k, hsame⟩) hk
      refine Or.inr ⟨?_, ?_⟩
      · simp [hfast, hslow, hload, hnext, hend, hsload, hsnext, hload', hnext', htwo, ← hsame, hKk]
      · rw [hKk]
        exact fun hs => hend (follow_none hs (by omega))
    · have hlt : k + 1 < K := by
        refine Nat.lt_of_le_of_ne hk (fun heq => hsame ?_)
        rw [heq]
        exact hK.1.2
      have hrest := ih hlt (by omega)
      simpa [hfast, hslow, hload, hnext, hend, hsload, hsnext, hload', hnext', htwo, hsame]
        using hrest

/-- **The second loop** ends at the first entry that comes again. -/
theorem moveBoth_spec (hl : Linked h head) (hne : ∀ k, follow h head k ≠ none) (hK : 0 < K)
    (hx : follow h head K = follow h head (2 * K)) {m : Nat}
    (hm : IsLeast {k | OnLoop (follow h head) k} m) (rounds : Nat) (hk : k ≤ m)
    (hr : m < rounds + k) :
    moveBoth h rounds (follow h head k) (follow h head (K + k)) = some (follow h head m) := by
  have hloop : ∀ k, OnLoop (follow h head) k ↔ follow h head (K + k) = follow h head k := fun k => by
    rw [stepped.onLoop_iff hK hx, Nat.add_comm]
  induction rounds generalizing k with
  | zero => omega
  | succ rounds ih =>
    rw [moveBoth]
    by_cases hsame : follow h head k = follow h head (K + k)
    · have hkm : k = m := Nat.le_antisymm hk (hm.2 ((hloop k).mpr hsame.symm))
      rw [if_pos hsame, hkm]
      rfl
    · have hlt : k < m := by
        refine Nat.lt_of_le_of_ne hk (fun heq => hsame ?_)
        rw [heq]
        exact ((hloop m).mp hm.1).symm
      obtain ⟨node, hload, hnext⟩ := hl.load (hne k)
      obtain ⟨node', hload', hnext'⟩ := hl.load (hne (K + k))
      have hrest := ih (k := k + 1) hlt (by omega)
      rw [if_neg hsame, hload, hload']
      show moveBoth h rounds node.next node'.next = _
      rw [hnext, hnext']
      exact hrest

/-! ### What the functions return -/

/-- **Floyd's algorithm**: both functions return.  The first finds whether the chain goes on for
ever, the second the first node of the chain that comes again. -/
theorem slistLoop_correct (h : Heap D) (head : Ptr) (hl : Linked h head) :
    ∃ found start, slistHasLoop h head = some found ∧ slistLoopStart h head = some start ∧
      (found = true ↔ ∀ k, follow h head k ≠ none) ∧
      ((∃ k, follow h head k = none) → start = none) ∧
      ((∀ k, follow h head k ≠ none) →
        ∃ m, IsLeast {k | OnLoop (follow h head) k} m ∧ start = follow h head m) := by
  rcases eq_or_ne head none with rfl | hhead
  · have hnull : follow h none 0 = none := rfl
    exact ⟨false, none, rfl, rfl, ⟨nofun, fun hne => absurd hnull (hne 0)⟩, fun _ => rfl,
      fun hne => absurd hnull (hne 0)⟩
  have hsome : head.isNone = false := Option.isNone_eq_false_iff.mpr (Option.isSome_iff_ne_none.mpr hhead)
  -- the first place at which the pointers can meet
  obtain ⟨n, hn0, hn, hmeet⟩ := hl.exists_meeting hhead
  obtain ⟨K, hK⟩ : ∃ K, Meeting h head K := ⟨_, isLeast_csInf ⟨n, hn0, hmeet⟩⟩
  have hKn : K ≤ h.mem.next := (hK.2 ⟨hn0, hmeet⟩).trans hn
  have hrun := meet_spec hl hK (k := 0) h.rounds hK.1.1 (by unfold Heap.rounds; omega)
  rw [slistHasLoop, slistLoopStart, hsome]
  rcases hrun with ⟨hrun, hnull⟩ | ⟨hrun, hne⟩
  · have hrun' : meet h h.rounds head head = some none := hrun
    refine ⟨false, none, by rw [hrun']; rfl, by rw [hrun']; rfl, ⟨nofun, ?_⟩, fun _ => rfl, ?_⟩
    · exact fun hne => absurd hnull (not_exists.mpr hne)
    · exact fun hne => absurd hnull (not_exists.mpr hne)
  · have hrun' : meet h h.rounds head head = some (some (follow h head K)) := hrun
    have hall := follow_ne_none hK.1.1 hK.1.2 hne
    -- the first entry that comes again, at `K` at the latest
    have honK : OnLoop (follow h head) K := (stepped.onLoop_iff hK.1.1 hK.1.2).mpr (by
      rw [← Nat.two_mul, ← hK.1.2])
    obtain ⟨m, hm⟩ : ∃ m, IsLeast {k | OnLoop (follow h head) k} m := ⟨_, isLeast_csInf ⟨K, honK⟩⟩
    have hmK : m ≤ K := hm.2 honK
    have hstart : moveBoth h h.rounds head (follow h head K) = some (follow h head m) :=
      moveBoth_spec hl hall hK.1.1 hK.1.2 hm (k := 0) h.rounds (Nat.zero_le m)
        (by unfold Heap.rounds; omega)
    refine ⟨true, follow h head m, by rw [hrun']; rfl, by rw [hrun']; exact hstart, ?_, ?_, ?_⟩
    · exact ⟨fun _ => hall, fun _ => rfl⟩
    · exact fun hnull => absurd hnull (not_exists.mpr hall)
    · exact fun _ => ⟨m, hm, rfl⟩

/-- A node in front of a loop of two nodes. -/
def tailAndLoop : Heap Nat where
  mem :=
    { cells := fun a =>
        if a = 0 then some ⟨7, some 1⟩
        else if a = 1 then some ⟨8, some 2⟩
        else if a = 2 then some ⟨9, some 1⟩
        else none
      next := 3
      outcomes := Outcomes.allOk
      fresh := fun a ha => by rw [if_neg (by omega), if_neg (by omega), if_neg (by omega)] }
  released := []

theorem linked_tailAndLoop : Linked tailAndLoop (some 0) := by
  have hstay : ∀ k, follow tailAndLoop (some 0) k ∈ [some 0, some 1, some 2] := fun k => by
    induction k with
    | zero => decide
    | succ k ih =>
      rw [List.mem_cons, List.mem_cons, List.mem_singleton] at ih
      rw [follow_succ]
      rcases ih with ih | ih | ih <;> rw [ih] <;> decide
  intro k a ha
  have hk := hstay k
  rw [ha, List.mem_cons, List.mem_cons, List.mem_singleton, Option.some.injEq, Option.some.injEq,
    Option.some.injEq] at hk
  rcases hk with rfl | rfl | rfl <;> decide

theorem slistLoop_correct_tail :
    ∃ found start, slistHasLoop tailAndLoop (some 0) = some found ∧
      slistLoopStart tailAndLoop (some 0) = some start ∧
      (found = true ↔ ∀ k, follow tailAndLoop (some 0) k ≠ none) ∧
      ((∃ k, follow tailAndLoop (some 0) k = none) → start = none) ∧
      ((∀ k, follow tailAndLoop (some 0) k ≠ none) →
        ∃ m, IsLeast {k | OnLoop (follow tailAndLoop (some 0)) k} m ∧
          start = follow tailAndLoop (some 0) m) :=
  slistLoop_correct tailAndLoop (some 0) linked_tailAndLoop

example : slistLoopStart tailAndLoop (some 0) = some (some 1) := by decide

end DataStructures.Slist
