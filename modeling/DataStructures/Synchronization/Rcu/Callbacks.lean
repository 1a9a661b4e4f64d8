import DataStructures.Lib.Handoff
import DataStructures.Synchronization.Rcu.Sections

/-!
# The callbacks and their nodes

The callbacks are handed over as in `Lib.Handoff`: `rcu_call` registers one in `rcu->cbs`,
`rcu_cleanup` takes them all and finishes them by invoking them.  `Books s L` says that the
ledger `L` tells where the callbacks of `s` are.

A node that is in no list belongs to one thread (`Pc.node`): the thread is about to push
it, or has invoked its callback and is about to free it.  `MemoryEffect` says once what an
action does to the nodes.
-/

namespace DataStructures.Rcu

open Kslist Lib.Handoff

variable {ι P V F : Type} {s s' : State ι P V F} {a : Act ι P V F} {i j : ι} {t : Thread P V F}
  {n : Nat} {pos : Option Node} {cs ds : List (Callback V F)} {e : Callback V F}
  {L L' : Ledger ι (Callback V F)} {pc : Pc V F}

/-- The callbacks in the list that begins at `pos`. -/
def Holds (s : State ι P V F) : Option Node → List (Callback V F) → Prop
  | pos, [] => pos = none
  | pos, e :: cs => pos = some (.node e.1) ∧ s.nodes e.1 = some e.2 ∧
      ∃ next, s.links (.node e.1) = some next ∧ Holds s next cs

/-- The callbacks in `rcu->cbs`. -/
def Queued (s : State ι P V F) (cs : List (Callback V F)) : Prop :=
  ∃ head, s.links .cbs = some head ∧ Holds s head cs

/-- The callbacks that a thread has detached in `rcu_cleanup` and has not invoked yet. -/
def Detached (s : State ι P V F) : Pc V F → List (Callback V F) → Prop
  | .cleanupNext it tmp, cs => tmp = it ∧ Holds s it cs
  | .cleanupInvoke it tmp, cs => ∃ e rest, cs = e :: rest ∧ tmp = some (.node e.1) ∧
      s.nodes e.1 = some e.2 ∧ (s.links (.node e.1)).isSome ∧ Holds s it rest
  | .cleanupFree it _, cs => Holds s it cs
  | _, cs => cs = []

/-- The thread walks a list it has detached. -/
def Pc.cleaning : Pc V F → Bool
  | .cleanupNext _ _ | .cleanupInvoke _ _ | .cleanupFree _ _ => true
  | _ => false

/-- The thread has no node and no list. -/
def Pc.quiet : Pc V F → Bool
  | .callPush _ | .cleanupNext _ _ | .cleanupInvoke _ _ | .cleanupFree _ _ => false
  | _ => true

/-- The node that only this thread uses. -/
def Pc.node : Pc V F → Option Nat
  | .callPush n => some n
  | .cleanupFree _ (some (.node n)) => some n
  | _ => none

/-- The two states have the same callbacks. -/
structure SameMemory (s s' : State ι P V F) : Prop where
  links : s'.links = s.links
  nodes : s'.nodes = s.nodes
  next : s'.next = s.next
  registered : s'.registered = s.registered
  invoked : s'.invoked = s.invoked

/-! ### Lists in memory -/

theorem node_ne_cbs (n : Nat) : Node.node n ≠ Node.cbs := nofun

theorem cbs_ne_node (n : Nat) : Node.cbs ≠ Node.node n := nofun

theorem Holds.congr (h : Holds s pos cs) (hsame : ∀ e ∈ cs,
    s'.links (.node e.1) = s.links (.node e.1) ∧ s'.nodes e.1 = s.nodes e.1) :
    Holds s' pos cs := by
  induction cs generalizing pos with
  | nil => exact h
  | cons e cs ih =>
    obtain ⟨hpos, hnode, next, hlink, hrest⟩ := h
    obtain ⟨hl, hn⟩ := hsame e List.mem_cons_self
    refine ⟨hpos, hn.trans hnode, next, hl.trans hlink, ih hrest ?_⟩
    intro d hd
    exact hsame d (List.mem_cons_of_mem e hd)

/-- A list in memory has one content. -/
theorem Holds.unique (h : Holds s pos cs) (h' : Holds s pos ds) : cs = ds := by
  induction cs generalizing pos ds with
  | nil =>
    cases ds with
    | nil => rfl
    | cons d ds => exact absurd (h.symm.trans h'.1) (by simp)
  | cons e cs ih =>
    cases ds with
    | nil => exact absurd (h'.symm.trans h.1) (by simp)
    | cons d ds =>
      obtain ⟨rfl, hnode, next, hlink, hrest⟩ := h
      obtain ⟨hpos, hnode', next', hlink', hrest'⟩ := h'
      have hkey : e.1 = d.1 := Node.node.inj (Option.some.inj hpos)
      rw [← hkey] at hnode' hlink'
      have hcallback : e.2 = d.2 := Option.some.inj (hnode.symm.trans hnode')
      obtain rfl : e = d := Prod.ext hkey hcallback
      obtain rfl := Option.some.inj (hlink.symm.trans hlink')
      rw [ih hrest hrest']

theorem Detached.congr (h : Detached s pc cs) (hsame : ∀ e ∈ cs,
    s'.links (.node e.1) = s.links (.node e.1) ∧ s'.nodes e.1 = s.nodes e.1) :
    Detached s' pc cs := by
  cases pc with
  | cleanupNext it tmp => exact ⟨h.1, Holds.congr h.2 hsame⟩
  | cleanupInvoke it tmp =>
    obtain ⟨e, rest, rfl, htmp, hnode, hlink, hrest⟩ := h
    obtain ⟨hl, hn⟩ := hsame e List.mem_cons_self
    refine ⟨e, rest, rfl, htmp, hn.trans hnode, by rw [hl, hlink], Holds.congr hrest ?_⟩
    intro d hd
    exact hsame d (List.mem_cons_of_mem e hd)
  | cleanupFree it tmp => exact Holds.congr h hsame
  | idle | lockAssert id | lockAdd id | unlockAssert id | unlockSub id | syncSize k | syncCnt k
  | callMalloc fn ptr | callPush a => exact h

theorem Detached.eq_nil (h : Detached s pc cs) (hpc : pc.cleaning = false) : cs = [] := by
  cases pc with
  | cleanupNext | cleanupInvoke | cleanupFree => exact Bool.noConfusion hpc
  | idle | lockAssert id | lockAdd id | unlockAssert id | unlockSub id | syncSize k | syncCnt k
  | callMalloc fn ptr | callPush a => exact h

theorem detached_nil (hpc : pc.cleaning = false) : Detached s pc [] := by
  cases pc with
  | cleanupNext | cleanupInvoke | cleanupFree => exact Bool.noConfusion hpc
  | idle | lockAssert id | lockAdd id | unlockAssert id | unlockSub id | syncSize k | syncCnt k
  | callMalloc fn ptr | callPush a => exact rfl

theorem Pc.quiet_iff : pc.quiet = true ↔ pc.cleaning = false ∧ pc.node = none := by
  cases pc <;> simp [Pc.quiet, Pc.cleaning, Pc.node]

/-! ### What one action does -/

variable [DecidableEq ι]

/-- What an action may do to the callbacks. -/
inductive MemoryEffect (s : State ι P V F) (a : Act ι P V F) (s' : State ι P V F) : Prop
  | quiet {t : Thread P V F} : SameMemory s s' → s'.thread = Function.update s.thread a.thread t →
      (s.thread a.thread).pc.quiet = true → t.pc.quiet = true →
      (∀ fn ptr, t.pc = .callMalloc fn ptr → a = .call a.thread (.call fn ptr)) → MemoryEffect s a s'
  | malloc {fn : F} {ptr : Pointer V} : (s.thread a.thread).pc = .callMalloc fn ptr →
      s' = { s with
        links := Function.update s.links (.node s.next) (some none)
        nodes := Function.update s.nodes s.next (some (fn, ptr))
        next := s.next + 1 }.goto a.thread (.callPush s.next) → MemoryEffect s a s'
  | push {n : Nat} {links : Store Node} {callback : F × Pointer V} :
      (s.thread a.thread).pc = .callPush n →
      kslistPushHead s.links .cbs (.node n) = some links → s.nodes n = some callback →
      s' = { s with links := links, registered := (n, callback) :: s.registered }.goto
        a.thread .idle → MemoryEffect s a s'
  | detach {it : Option Node} : a = .call a.thread .cleanup → (s.thread a.thread).pc = .idle →
      s.links .cbs = some it →
      s' = { s with links := Function.update s.links .cbs (some none) }.goto a.thread
        (.cleanupNext it it) → MemoryEffect s a s'
  | last {tmp : Option Node} : (s.thread a.thread).pc = .cleanupNext none tmp →
      s' = s.goto a.thread .idle → MemoryEffect s a s'
  | next {x : Node} {tmp next : Option Node} : (s.thread a.thread).pc = .cleanupNext (some x) tmp →
      s.links x = some next → s' = s.goto a.thread (.cleanupInvoke next tmp) → MemoryEffect s a s'
  | invoke {it : Option Node} {n : Nat} {callback : F × Pointer V} :
      (s.thread a.thread).pc = .cleanupInvoke it (some (.node n)) → s.nodes n = some callback →
      s' = { s with invoked := (n, callback) :: s.invoked }.goto a.thread
        (.cleanupFree it (some (.node n))) → MemoryEffect s a s'
  | free {it : Option Node} {n : Nat} :
      (s.thread a.thread).pc = .cleanupFree it (some (.node n)) → (s.nodes n).isSome →
      s' = { s with
        links := Function.update s.links (.node n) none
        nodes := Function.update s.nodes n none }.goto a.thread (.cleanupNext it it) →
      MemoryEffect s a s'

theorem goto_memory (hold : (s.thread a.thread).pc.quiet = true) (hpc : pc.quiet = true)
    (hcall : ∀ fn ptr, pc = .callMalloc fn ptr → a = .call a.thread (.call fn ptr)) :
    MemoryEffect s a (s.goto a.thread pc) :=
  .quiet ⟨rfl, rfl, rfl, rfl, rfl⟩ rfl hold hpc hcall

/-- An action of an idle thread that stays idle. -/
theorem idle_memory (hsame : SameMemory s s')
    (hth : s'.thread = Function.update s.thread a.thread t)
    (hold : (s.thread a.thread).pc = .idle) (hpc : t.pc = .idle) : MemoryEffect s a s' := by
  refine .quiet hsame hth (by rw [hold]; rfl) (by rw [hpc]; rfl) ?_
  intro fn ptr he
  rw [hpc] at he
  exact nomatch he

theorem advance_memory {ok : Bool} (h : advance s i ok (s.thread i).pc = some s') :
    MemoryEffect s (.step i ok) s' := by
  have hcases := advance_cases h
  generalize hpc : (s.thread i).pc = pc at hcases
  cases hcases with
  | lockAssert _ | unlockAssert _ | scan _ | scanEnd _ | scanAgain _ | scanNext _ | noMemory =>
    exact goto_memory (a := .step i ok) (by rw [Act.thread, hpc]; rfl) rfl (by simp)
  | lockAdd h | unlockSub h =>
    rw [setCnt] at h
    split at h
    · obtain rfl := Option.some.inj h
      exact .quiet ⟨rfl, rfl, rfl, rfl, rfl⟩ rfl (by rw [Act.thread, hpc]; rfl) rfl (by simp)
    · cases h
  | malloc => exact .malloc hpc rfl
  | push hlinks hnode => exact .push hpc hlinks hnode rfl
  | last => exact .last hpc rfl
  | next hnext => exact .next hpc hnext rfl
  | invoke hnode => exact .invoke hpc hnode rfl
  | free hnode => exact .free hpc hnode rfl

theorem rcuRegisterThread_memory (hpc : (s.thread i).pc = .idle)
    (h : rcuRegisterThread s i = some s') : MemoryEffect s (.call i .registerThread) s' := by
  rw [rcuRegisterThread] at h
  split at h
  · obtain rfl := Option.some.inj h
    exact idle_memory ⟨rfl, rfl, rfl, rfl, rfl⟩ rfl hpc hpc
  · split at h
    · obtain rfl := Option.some.inj h
      exact idle_memory ⟨rfl, rfl, rfl, rfl, rfl⟩ rfl hpc hpc
    · cases h

/-- **Every action has one effect on the callbacks.** -/
theorem step_memory [DecidableEq P] (h : step s a = some s') : MemoryEffect s a s' := by
  cases a with
  | step i ok => exact advance_memory h
  | call i f =>
    obtain ⟨hpc, h⟩ := step_call h
    have hquiet : (s.thread i).pc.quiet = true := by rw [hpc]; rfl
    cases f with
    | registerThread => exact rcuRegisterThread_memory hpc h
    | readLock | readUnlock =>
      obtain ⟨id, -, rfl⟩ := Option.map_eq_some_iff.mp h
      exact goto_memory (a := .call i _) hquiet rfl (by simp)
    | assignPointer p new =>
      obtain rfl := Option.some.inj h
      exact idle_memory ⟨rfl, rfl, rfl, rfl, rfl⟩ (Function.update_eq_self i s.thread).symm hpc hpc
    | dereference p | exchange p new =>
      obtain rfl := Option.some.inj h
      exact idle_memory ⟨rfl, rfl, rfl, rfl, rfl⟩ rfl hpc hpc
    | synchronize =>
      obtain rfl := Option.some.inj h
      exact goto_memory (a := .call i _) hquiet rfl (by simp)
    | call fn ptr =>
      obtain rfl := Option.some.inj h
      refine goto_memory (a := .call i _) hquiet rfl ?_
      intro fn' ptr' he
      obtain ⟨rfl, rfl⟩ := Pc.callMalloc.injEq .. ▸ he
      rfl
    | cleanup =>
      obtain ⟨it, hit, hs⟩ := rcuCleanup_eq_some h
      exact .detach rfl hpc hit hs

namespace MemoryEffect

variable {fn : F} {ptr : Pointer V}

/-- A thread is in `rcu_call` because it has called it. -/
theorem callMalloc (h : MemoryEffect s a s') (hpc : (s'.thread a.thread).pc = .callMalloc fn ptr) :
    a = .call a.thread (.call fn ptr) := by
  cases h with
  | quiet _ hth _ _ hcall =>
    rw [hth, Function.update_self] at hpc
    exact hcall fn ptr hpc
  | malloc _ hs | push _ _ _ hs | detach _ _ _ hs | last _ hs | next _ _ hs | invoke _ _ hs
  | free _ _ hs =>
    rw [hs, goto_pc_self] at hpc
    exact nomatch hpc

/-- The node a thread is about to push is the one it has allocated. -/
theorem callPush (h : MemoryEffect s a s') (hpc : (s'.thread a.thread).pc = .callPush n) :
    ∃ fn ptr, (s.thread a.thread).pc = .callMalloc fn ptr ∧ s'.nodes n = some (fn, ptr) := by
  cases h with
  | quiet _ hth _ hquiet _ =>
    rw [hth, Function.update_self] at hpc
    rw [hpc] at hquiet
    exact nomatch hquiet
  | @malloc fn ptr hold hs =>
    rw [hs, goto_pc_self] at hpc
    obtain rfl := Pc.callPush.inj hpc
    refine ⟨fn, ptr, hold, ?_⟩
    rw [hs]
    exact Function.update_self ..
  | push _ _ _ hs | detach _ _ _ hs | last _ hs | next _ _ hs | invoke _ _ hs | free _ _ hs =>
    rw [hs, goto_pc_self] at hpc
    exact nomatch hpc

/-- What is registered is what a thread pushes. -/
theorem mem_registered (h : MemoryEffect s a s') (he : e ∈ s'.registered) : e ∈ s.registered ∨
    (s.thread a.thread).pc = .callPush e.1 ∧ s.nodes e.1 = some e.2 := by
  cases h with
  | quiet hsame => exact Or.inl (hsame.registered ▸ he)
  | push hpc _ hnode hs =>
    rw [hs] at he
    obtain rfl | he := List.mem_cons.mp he
    · exact Or.inr ⟨hpc, hnode⟩
    · exact Or.inl he
  | malloc _ hs | detach _ _ _ hs | last _ hs | next _ _ hs | invoke _ _ hs | free _ _ hs =>
    rw [hs] at he
    exact Or.inl he

end MemoryEffect

/-! ### The books -/

variable [Fintype ι]

/-- The ledger tells where the callbacks are. -/
structure Books (s : State ι P V F) (L : Ledger ι (Callback V F)) : Prop where
  registered : L.registered = s.registered
  done : L.done = s.invoked
  balanced : L.Balanced Prod.fst
  lt : ∀ e ∈ L.registered, e.1 < s.next
  queued : Queued s L.queue
  detached : ∀ i, Detached s (s.thread i).pc (L.taken i)
  /-- a node that only one thread uses is there -/
  node : ∀ i n, (s.thread i).pc.node = some n →
    n < s.next ∧ (s.nodes n).isSome ∧ (s.links (.node n)).isSome
  alone : ∀ i j n, (s.thread i).pc.node = some n → (s.thread j).pc.node = some n → i = j
  pushing : ∀ i n, (s.thread i).pc = .callPush n → ∀ e ∈ L.registered, e.1 ≠ n
  freeing : ∀ i it tmp, (s.thread i).pc = .cleanupFree it tmp →
    ∃ e ∈ L.done, tmp = some (.node e.1)

omit [DecidableEq ι] in
theorem books_create {ptr : P → Pointer V} : Books (rcuCreate ptr : State ι P V F) .empty := by
  refine ⟨rfl, rfl, balanced_empty, ?_, ⟨none, rfl, rfl⟩, fun _ => rfl, ?_, ?_, ?_, ?_⟩
  · intro e he
    exact absurd he (Multiset.notMem_zero e)
  · intro i n h
    exact nomatch h
  · intro i j n h
    exact nomatch h
  · intro i n h
    exact nomatch h
  · intro i it tmp h
    exact nomatch h

omit [DecidableEq ι] in
/-- The node of a thread is in no list. -/
theorem Books.node_ne (h : Books s L) (hn : (s.thread i).pc.node = some n)
    (he : e ∈ L.queue ∨ ∃ j, e ∈ L.taken j) : e.1 ≠ n := by
  cases hpc : (s.thread i).pc with
  | callPush m =>
    rw [hpc] at hn
    obtain rfl := Option.some.inj hn
    exact h.pushing i m hpc e (h.balanced.mem_iff.mpr (Or.inr he))
  | cleanupFree it tmp =>
    obtain ⟨d, hd, rfl⟩ := h.freeing i it tmp hpc
    rw [hpc] at hn
    obtain rfl := Option.some.inj hn
    exact (h.balanced.key_ne_of_done hd he).symm
  | idle | lockAssert | lockAdd | unlockAssert | unlockSub | syncSize | syncCnt | callMalloc
  | cleanupNext | cleanupInvoke =>
    rw [hpc] at hn
    exact nomatch hn

omit [DecidableEq ι] in
theorem Books.lt_next (h : Books s L) (he : e ∈ L.queue ∨ ∃ j, e ∈ L.taken j) : e.1 < s.next :=
  h.lt e (h.balanced.mem_iff.mpr (Or.inr he))

omit [Fintype ι] in
/-- A node that a thread comes to use alone is one that no other thread uses. -/
theorem alone_update
    (h : ∀ j k n, (s.thread j).pc.node = some n → (s.thread k).pc.node = some n → j = k)
    (hth : s'.thread = Function.update s.thread i t)
    (hnew : ∀ n, t.pc.node = some n → ∀ j, j ≠ i → (s.thread j).pc.node ≠ some n) :
    ∀ j k n, (s'.thread j).pc.node = some n → (s'.thread k).pc.node = some n → j = k := by
  intro j k n hj hk
  rw [hth] at hj hk
  obtain rfl | hji := eq_or_ne j i
  · obtain rfl | hki := eq_or_ne k j
    · rfl
    · rw [Function.update_self] at hj
      rw [Function.update_of_ne hki] at hk
      exact absurd hk (hnew n hj k hki)
  · rw [Function.update_of_ne hji] at hj
    obtain rfl | hki := eq_or_ne k i
    · rw [Function.update_self] at hk
      exact absurd hj (hnew n hk j hji)
    · rw [Function.update_of_ne hki] at hk
      exact h j k n hj hk

/-- What is to be shown of a step of thread `i`: it leaves the nodes alone that it does not
use, and the books are right about the thread itself. -/
theorem Books.of_step (h : Books s L) (hth : s'.thread = Function.update s.thread i t)
    (hmove : Move Prod.fst i L L') (hreg : L'.registered = s'.registered)
    (hdone : L'.done = s'.invoked) (hnext : s.next ≤ s'.next)
    (hframe : ∀ n < s.next, (s.thread i).pc.node ≠ some n →
      s'.links (.node n) = s.links (.node n) ∧ s'.nodes n = s.nodes n)
    (hmem : ∀ e ∈ L'.registered, e ∈ L.registered ∨ (s.thread i).pc.node = some e.1)
    (hqueued : Queued s' L'.queue) (hdet : Detached s' t.pc (L'.taken i))
    (hnode : ∀ n, t.pc.node = some n → n < s'.next ∧ (s'.nodes n).isSome ∧
      (s'.links (.node n)).isSome ∧ ∀ j, j ≠ i → (s.thread j).pc.node ≠ some n)
    (hpush : ∀ n, t.pc = .callPush n → ∀ e ∈ L'.registered, e.1 ≠ n)
    (hfree : ∀ it tmp, t.pc = .cleanupFree it tmp → ∃ e ∈ L'.done, tmp = some (.node e.1)) :
    Books s' L' := by
  have hother : ∀ j n, j ≠ i → (s.thread j).pc.node = some n → (s.thread i).pc.node ≠ some n :=
    fun j n hj hn he => hj (h.alone j i n hn he)
  refine ⟨hreg, hdone, h.balanced.move hmove, ?_, hqueued, ?_, ?_, ?_, ?_, ?_⟩
  · intro e he
    obtain hold | hn := hmem e he
    · exact Nat.lt_of_lt_of_le (h.lt e hold) hnext
    · exact Nat.lt_of_lt_of_le (h.node i e.1 hn).1 hnext
  · refine forall_thread (fun j t => Detached s' t.pc (L'.taken j)) hth hdet ?_
    intro j hj
    rw [hmove.taken_of_ne hj]
    refine (h.detached j).congr ?_
    intro e he
    exact hframe e.1 (h.lt_next (Or.inr ⟨j, he⟩)) (fun hn => h.node_ne hn (Or.inr ⟨j, he⟩) rfl)
  · refine forall_thread (fun j t => ∀ n, t.pc.node = some n → n < s'.next ∧
      (s'.nodes n).isSome ∧ (s'.links (.node n)).isSome) hth ?_ ?_
    · intro n hn
      obtain ⟨hlt, hs, hl, -⟩ := hnode n hn
      exact ⟨hlt, hs, hl⟩
    · intro j hj n hn
      obtain ⟨hlt, hs, hl⟩ := h.node j n hn
      obtain ⟨hl', hs'⟩ := hframe n hlt (hother j n hj hn)
      exact ⟨Nat.lt_of_lt_of_le hlt hnext, by rw [hs', hs], by rw [hl', hl]⟩
  · exact alone_update h.alone hth (fun n hn => (hnode n hn).2.2.2)
  · refine forall_thread (fun _ t => ∀ n, t.pc = .callPush n → ∀ e ∈ L'.registered, e.1 ≠ n)
      hth hpush ?_
    rintro j hj n hpc e he rfl
    have hn : (s.thread j).pc.node = some e.1 := by rw [hpc]; rfl
    obtain hold | hi := hmem e he
    · exact h.pushing j e.1 hpc e hold rfl
    · exact hother j e.1 hj hn hi
  · refine forall_thread (fun _ t => ∀ it tmp, t.pc = .cleanupFree it tmp →
      ∃ e ∈ L'.done, tmp = some (.node e.1)) hth hfree ?_
    intro j _ it tmp hpc
    obtain ⟨e, he, htmp⟩ := h.freeing j it tmp hpc
    exact ⟨e, hmove.mem_done he, htmp⟩

omit [DecidableEq ι] in
/-- The queue is as it was if its nodes are. -/
theorem Books.queued_congr (h : Books s L) (hcbs : s'.links .cbs = s.links .cbs)
    (hframe : ∀ n < s.next, (s.thread i).pc.node ≠ some n →
      s'.links (.node n) = s.links (.node n) ∧ s'.nodes n = s.nodes n) :
    Queued s' L.queue := by
  obtain ⟨head, hhead, hlist⟩ := h.queued
  refine ⟨head, hcbs.trans hhead, hlist.congr ?_⟩
  intro e he
  exact hframe e.1 (h.lt_next (Or.inl he)) (fun hn => h.node_ne hn (Or.inl he) rfl)

theorem Books.quiet (h : Books s L) (hsame : SameMemory s s')
    (hth : s'.thread = Function.update s.thread i t) (hold : (s.thread i).pc.quiet = true)
    (hpc : t.pc.quiet = true) : Books s' L := by
  obtain ⟨hlinks, hnodes, hnext, hreg, hinv⟩ := hsame
  obtain ⟨hcleaning, hnode⟩ := Pc.quiet_iff.mp hpc
  have hframe : ∀ n < s.next, (s.thread i).pc.node ≠ some n →
      s'.links (.node n) = s.links (.node n) ∧ s'.nodes n = s.nodes n :=
    fun n _ _ => ⟨by rw [hlinks], by rw [hnodes]⟩
  refine h.of_step hth .keep (hreg ▸ h.registered) (hinv ▸ h.done) hnext.ge hframe
    (fun e he => Or.inl he) (h.queued_congr (by rw [hlinks]) hframe) ?_ ?_ ?_ ?_
  · rw [(h.detached i).eq_nil (Pc.quiet_iff.mp hold).1]
    exact detached_nil hcleaning
  · intro n hn
    rw [hnode] at hn
    exact nomatch hn
  · intro n hn
    rw [hn] at hnode
    exact nomatch hnode
  · intro it tmp hn
    rw [hn] at hcleaning
    exact nomatch hcleaning

theorem Books.malloc {fn : F} {ptr : Pointer V} (h : Books s L)
    (hpc : (s.thread i).pc = .callMalloc fn ptr)
    (hs : s' = { s with
      links := Function.update s.links (.node s.next) (some none)
      nodes := Function.update s.nodes s.next (some (fn, ptr))
      next := s.next + 1 }.goto i (.callPush s.next)) : Books s' L := by
  subst hs
  have hframe : ∀ n < s.next, (s.thread i).pc.node ≠ some n →
      Function.update s.links (.node s.next) (some none) (.node n) = s.links (.node n) ∧
        Function.update s.nodes s.next (some (fn, ptr)) n = s.nodes n := by
    intro n hn _
    have hne : n ≠ s.next := Nat.ne_of_lt hn
    exact ⟨Function.update_of_ne (fun he => hne (Node.node.inj he)) ..,
      Function.update_of_ne hne ..⟩
  refine h.of_step rfl .keep h.registered h.done (Nat.le_succ _) hframe (fun e he => Or.inl he)
    (h.queued_congr (Function.update_of_ne (cbs_ne_node s.next) (some none) s.links) hframe)
    ?_ ?_ ?_ nofun
  · exact (h.detached i).eq_nil (by rw [hpc]; rfl)
  · intro n hn
    obtain rfl := Option.some.inj hn
    refine ⟨Nat.lt_succ_self _, ?_, ?_, ?_⟩
    · exact Option.isSome_iff_exists.mpr ⟨_, Function.update_self ..⟩
    · exact Option.isSome_iff_exists.mpr ⟨_, Function.update_self ..⟩
    · intro j _ hj
      exact Nat.lt_irrefl _ (h.node j _ hj).1
  · intro n hn e he hen
    obtain rfl := Pc.callPush.inj hn
    exact Nat.ne_of_lt (h.lt e he) hen

/-- `rcu_call` registers the callback of its node. -/
theorem Books.push (h : Books s L) {links : Store Node} {callback : F × Pointer V}
    (hpc : (s.thread i).pc = .callPush n)
    (hlinks : kslistPushHead s.links .cbs (.node n) = some links)
    (hcallback : s.nodes n = some callback)
    (hs : s' = { s with links := links, registered := (n, callback) :: s.registered }.goto
      i .idle) : ∃ L', Books s' L' ∧ Move Prod.fst i L L' ∧ L'.taken = L.taken := by
  subst hs
  have hn : (s.thread i).pc.node = some n := by rw [hpc]; rfl
  obtain ⟨head, hhead, hlist⟩ := h.queued
  rw [kslistPushHead_eq hhead (h.node i n hn).2.2 nofun] at hlinks
  obtain rfl := Option.some.inj hlinks
  have hframe : ∀ m < s.next, (s.thread i).pc.node ≠ some m →
      Function.update (Function.update s.links (.node n) (some head)) .cbs (some (some (.node n)))
        (.node m) = s.links (.node m) ∧ s.nodes m = s.nodes m := by
    intro m _ hm
    have hne : m ≠ n := by
      rintro rfl
      exact hm hn
    rw [Function.update_of_ne (node_ne_cbs m),
      Function.update_of_ne (fun he => hne (Node.node.inj he))]
    exact ⟨rfl, rfl⟩
  have hmove : Move Prod.fst i L
      { L with registered := (n, callback) ::ₘ L.registered, queue := (n, callback) :: L.queue } := by
    refine .register ?_
    intro hkey
    obtain ⟨e, he, hen⟩ := Multiset.mem_map.mp hkey
    exact h.pushing i n hpc e he hen
  refine ⟨_, ?_, hmove, rfl⟩
  refine h.of_step rfl hmove ?_ h.done (Nat.le_refl _) hframe ?_ ?_ ?_ nofun nofun nofun
  · show (n, callback) ::ₘ L.registered = _
    rw [h.registered]
    rfl
  · intro e he
    obtain rfl | he := Multiset.mem_cons.mp he
    · exact Or.inr hn
    · exact Or.inl he
  · have hfirst : Function.update (Function.update s.links (.node n) (some head)) .cbs
        (some (some (.node n))) .cbs = some (some (.node n)) := Function.update_self ..
    refine ⟨some (.node n), hfirst, rfl, hcallback, head, ?_, ?_⟩
    · exact (Function.update_of_ne (node_ne_cbs n) (some (some (.node n))) _).trans
        (Function.update_self ..)
    · refine hlist.congr ?_
      intro e he
      exact hframe e.1 (h.lt_next (Or.inl he)) (fun hm => h.node_ne hm (Or.inl he) rfl)
  · exact (h.detached i).eq_nil (by rw [hpc]; rfl)

/-- `rcu_cleanup` takes all the callbacks of `rcu->cbs`. -/
theorem Books.detach (h : Books s L) {it : Option Node} (hpc : (s.thread i).pc = .idle)
    (hit : s.links .cbs = some it)
    (hs : s' = { s with links := Function.update s.links .cbs (some none) }.goto i
      (.cleanupNext it it)) :
    ∃ L', Books s' L' ∧ Move Prod.fst i L L' ∧ L'.queue = [] ∧
      L'.taken = Function.update L.taken i L.queue := by
  subst hs
  obtain ⟨head, hhead, hlist⟩ := h.queued
  obtain rfl := Option.some.inj (hit.symm.trans hhead)
  have hframe : ∀ m < s.next, (s.thread i).pc.node ≠ some m →
      Function.update s.links .cbs (some none) (.node m) = s.links (.node m) ∧
        s.nodes m = s.nodes m :=
    fun m _ _ => ⟨Function.update_of_ne (node_ne_cbs m) .., rfl⟩
  have hmove : Move Prod.fst i L
      { L with queue := [], taken := Function.update L.taken i L.queue } :=
    .take ((h.detached i).eq_nil (by rw [hpc]; rfl))
  refine ⟨_, ?_, hmove, rfl, rfl⟩
  have hempty : Function.update s.links .cbs (some none) .cbs = some none :=
    Function.update_self ..
  refine h.of_step rfl hmove h.registered h.done (Nat.le_refl _) hframe (fun e he => Or.inl he)
    ⟨none, hempty, rfl⟩ ?_ nofun nofun nofun
  show it = it ∧ Holds _ it (Function.update L.taken i L.queue i)
  rw [Function.update_self]
  refine ⟨rfl, hlist.congr ?_⟩
  intro e he
  exact hframe e.1 (h.lt_next (Or.inl he)) (fun hm => h.node_ne hm (Or.inl he) rfl)

/-- **A thread goes on** without an access to the list or a node. -/
theorem Books.goto (h : Books s L) {pc : Pc V F} (hdet : Detached (s.goto i pc) pc (L.taken i))
    (hnode : pc.node = none) (hfree : ∀ it tmp, pc ≠ .cleanupFree it tmp) :
    Books (s.goto i pc) L := by
  have hsame : ∀ n < s.next, (s.thread i).pc.node ≠ some n →
      s.links (.node n) = s.links (.node n) ∧ s.nodes n = s.nodes n := fun _ _ _ => ⟨rfl, rfl⟩
  refine h.of_step rfl .keep h.registered h.done (Nat.le_refl _) hsame (fun e he => Or.inl he)
    (h.queued_congr rfl hsame) hdet ?_ ?_ (fun it tmp he => absurd he (hfree it tmp))
  · intro n hn
    cases hnode.symm.trans hn
  · rintro n rfl
    cases hnode

theorem Books.last (h : Books s L) {tmp : Option Node}
    (hpc : (s.thread i).pc = .cleanupNext none tmp) : Books (s.goto i .idle) L := by
  refine h.goto ?_ rfl nofun
  have hdet := h.detached i
  rw [hpc] at hdet
  cases htaken : L.taken i with
  | nil => rfl
  | cons e cs =>
    rw [htaken] at hdet
    exact nomatch hdet.2.1

theorem Books.next (h : Books s L) {x : Node} {tmp next : Option Node}
    (hpc : (s.thread i).pc = .cleanupNext (some x) tmp) (hnext : s.links x = some next) :
    Books (s.goto i (.cleanupInvoke next tmp)) L := by
  refine h.goto ?_ rfl nofun
  have hdet := h.detached i
  rw [hpc] at hdet
  obtain ⟨rfl, hlist⟩ := hdet
  cases htaken : L.taken i with
  | nil =>
    rw [htaken] at hlist
    exact nomatch hlist
  | cons e cs =>
    rw [htaken] at hlist
    obtain ⟨hx, hnode, next', hlink, hrest⟩ := hlist
    obtain rfl := Option.some.inj hx
    obtain rfl := Option.some.inj (hnext.symm.trans hlink)
    exact ⟨e, cs, rfl, rfl, hnode, Option.isSome_iff_exists.mpr ⟨_, hlink⟩,
      Holds.congr hrest (fun _ _ => ⟨rfl, rfl⟩)⟩

/-- `rcu_cleanup` finishes a callback by invoking it. -/
theorem Books.invoke (h : Books s L) {it : Option Node} {callback : F × Pointer V}
    (hpc : (s.thread i).pc = .cleanupInvoke it (some (.node n)))
    (hcallback : s.nodes n = some callback)
    (hs : s' = { s with invoked := (n, callback) :: s.invoked }.goto i
      (.cleanupFree it (some (.node n)))) :
    ∃ L' e rest, Books s' L' ∧ Move Prod.fst i L L' ∧ L.taken i = e :: rest ∧
      L'.taken = Function.update L.taken i rest ∧ s'.invoked = e :: s.invoked := by
  subst hs
  have hdet := h.detached i
  rw [hpc] at hdet
  obtain ⟨e, rest, htaken, htmp, hnode, hlink, hlist⟩ := hdet
  obtain rfl : n = e.1 := Node.node.inj (Option.some.inj htmp)
  obtain rfl := Option.some.inj (hcallback.symm.trans hnode)
  have hmem : e ∈ L.taken i := htaken ▸ List.mem_cons_self
  have hmove : Move Prod.fst i L
      { L with done := e ::ₘ L.done, taken := Function.update L.taken i rest } := .finish htaken
  refine ⟨_, e, rest, ?_, hmove, htaken, rfl, rfl⟩
  have hsame : ∀ n < s.next, (s.thread i).pc.node ≠ some n →
      s.links (.node n) = s.links (.node n) ∧ s.nodes n = s.nodes n := fun _ _ _ => ⟨rfl, rfl⟩
  refine h.of_step rfl hmove h.registered ?_ (Nat.le_refl _) hsame (fun e he => Or.inl he)
    (h.queued_congr rfl hsame) ?_ ?_ nofun ?_
  · show e ::ₘ L.done = _
    rw [h.done]
    rfl
  · show Holds _ it (Function.update L.taken i rest i)
    rw [Function.update_self]
    exact Holds.congr hlist (fun _ _ => ⟨rfl, rfl⟩)
  · intro m hm
    obtain rfl := Option.some.inj hm
    refine ⟨h.lt_next (Or.inr ⟨i, hmem⟩), Option.isSome_iff_exists.mpr ⟨_, hnode⟩, hlink, ?_⟩
    intro j _ hj
    exact h.node_ne hj (Or.inr ⟨i, hmem⟩) rfl
  · intro it' tmp' hpc'
    obtain ⟨-, rfl⟩ := Pc.cleanupFree.injEq .. ▸ hpc'
    exact ⟨e, Multiset.mem_cons_self e L.done, rfl⟩

theorem Books.free (h : Books s L) {it : Option Node}
    (hpc : (s.thread i).pc = .cleanupFree it (some (.node n)))
    (hs : s' = { s with
      links := Function.update s.links (.node n) none
      nodes := Function.update s.nodes n none }.goto i (.cleanupNext it it)) : Books s' L := by
  subst hs
  have hframe : ∀ m < s.next, (s.thread i).pc.node ≠ some m →
      Function.update s.links (.node n) none (.node m) = s.links (.node m) ∧
        Function.update s.nodes n none m = s.nodes m := by
    intro m _ hm
    have hne : m ≠ n := by
      rintro rfl
      exact hm (by rw [hpc]; rfl)
    exact ⟨Function.update_of_ne (fun he => hne (Node.node.inj he)) ..,
      Function.update_of_ne hne ..⟩
  refine h.of_step rfl .keep h.registered h.done (Nat.le_refl _) hframe (fun e he => Or.inl he)
    (h.queued_congr (Function.update_of_ne (cbs_ne_node n) none s.links) hframe) ?_ nofun nofun
    nofun
  have hdet := h.detached i
  rw [hpc] at hdet
  refine ⟨rfl, Holds.congr hdet ?_⟩
  intro e he
  exact hframe e.1 (h.lt_next (Or.inr ⟨i, he⟩)) (fun hm => h.node_ne hm (Or.inr ⟨i, he⟩) rfl)

/-- Other threads leave the node of a thread alone. -/
theorem Books.nodes_eq (h : Books s L) (hj : j ≠ a.thread) (hn : (s.thread j).pc.node = some n)
    (hs : MemoryEffect s a s') : s'.nodes n = s.nodes n := by
  cases hs with
  | quiet hsame => rw [hsame.nodes]
  | malloc hpc hs =>
    subst hs
    exact Function.update_of_ne (Nat.ne_of_lt (h.node j n hn).1) ..
  | push _ _ _ hs | detach _ _ _ hs | last _ hs | next _ _ hs | invoke _ _ hs =>
    subst hs
    rfl
  | free hpc _ hs =>
    subst hs
    refine Function.update_of_ne ?_ ..
    rintro rfl
    exact hj (h.alone j a.thread n hn (by rw [hpc]; rfl))

/-- **Every action is a move of the callbacks.** -/
theorem Books.step [DecidableEq P] (h : Books s L) (hs : Rcu.step s a = some s') :
    ∃ L', Books s' L' ∧ Move Prod.fst a.thread L L' := by
  cases step_memory hs with
  | quiet hsame hth hold hpc => exact ⟨L, h.quiet hsame hth hold hpc, .keep⟩
  | malloc hpc hs => exact ⟨L, h.malloc hpc hs, .keep⟩
  | push hpc hlinks hnode hs =>
    obtain ⟨L', hL', hmove, -⟩ := h.push hpc hlinks hnode hs
    exact ⟨L', hL', hmove⟩
  | detach _ hpc hit hs =>
    obtain ⟨L', hL', hmove, -⟩ := h.detach hpc hit hs
    exact ⟨L', hL', hmove⟩
  | last hpc hs => exact ⟨L, hs ▸ h.last hpc, .keep⟩
  | next hpc hnext hs => exact ⟨L, hs ▸ h.next hpc hnext, .keep⟩
  | invoke hpc hnode hs =>
    obtain ⟨L', e, rest, hL', hmove, -⟩ := h.invoke hpc hnode hs
    exact ⟨L', hL', hmove⟩
  | free hpc _ hs => exact ⟨L, h.free hpc hs, .keep⟩

end DataStructures.Rcu
