import DataStructures.Synchronization.Rcu.Callbacks

/-!
# Callbacks are neither lost nor repeated

Every reachable state has its books, so a registered callback is invoked, in `rcu->cbs`, or
detached by one running `rcu_cleanup`.  One that is detached stays so until it is invoked
(`Held`).
-/

namespace DataStructures.Rcu

open Lib.Runs Lib.Handoff

variable {ι P V F : Type} [DecidableEq ι] [DecidableEq P] [Fintype ι]
  {s s' s₁ s₂ : State ι P V F} {a : Act ι P V F} {as : List (Act ι P V F)} {i w : ι}
  {e : Callback V F}

/-- The callbacks are where they should be. -/
def Accounted (s : State ι P V F) : Prop := ∃ L, Books s L

theorem Accounted.next (h : Accounted s) (ha : step s a = some s') : Accounted s' := by
  obtain ⟨L, hL⟩ := h
  obtain ⟨L', hL', -⟩ := hL.step ha
  exact ⟨L', hL'⟩

theorem Reachable.accounted (h : Reachable s) : Accounted s := by
  obtain ⟨ptr, hr⟩ := h
  exact Lib.Runs.Reachable.invariant (P := Accounted) Accounted.next
    ⟨Ledger.empty, books_create⟩ hr

/-- Thread `i` has invoked the callback, or has it in the list it walks. -/
def Held (e : Callback V F) (i : ι) (s : State ι P V F) : Prop :=
  ∃ L, Books s L ∧ (e ∈ L.done ∨ e ∈ L.taken i)

theorem Held.next (h : Held e i s) (ha : step s a = some s') : Held e i s' := by
  obtain ⟨L, hL, he⟩ := h
  obtain ⟨L', hL', hmove⟩ := hL.step ha
  obtain he | he := he
  · exact ⟨L', hL', Or.inl (hmove.mem_done he)⟩
  · exact ⟨L', hL', hmove.mem_taken he⟩

omit [DecidableEq ι] [DecidableEq P] in
/-- A thread that walks no list has invoked it. -/
theorem Held.invoked (h : Held e i s) (hpc : (s.thread i).pc.cleaning = false) :
    e ∈ s.invoked := by
  obtain ⟨L, hL, he⟩ := h
  rw [(hL.detached i).eq_nil hpc] at he
  obtain he | he := he
  · exact Multiset.mem_coe.mp (hL.done ▸ he)
  · exact absurd he List.not_mem_nil

omit [DecidableEq ι] [DecidableEq P] in
theorem Books.nodup_invoked {L : Ledger ι (Callback V F)} (h : Books s L) : s.invoked.Nodup := by
  have hnodup := h.balanced.nodup_done
  rw [h.done] at hnodup
  exact Multiset.coe_nodup.mp hnodup

theorem invoked_mono (hL : Accounted s) (hr : run step s as = some s') (he : e ∈ s.invoked) :
    e ∈ s'.invoked := by
  have hkeep : Accounted s' ∧ e ∈ s'.invoked := by
    refine run_invariant (P := fun s => Accounted s ∧ e ∈ s.invoked) ?_ ⟨hL, he⟩ hr
    rintro s a s' ⟨⟨L, hL⟩, he⟩ ha
    obtain ⟨L', hL', hmove⟩ := hL.step ha
    have hdone : e ∈ L'.done := hmove.mem_done (hL.done ▸ Multiset.mem_coe.mpr he)
    exact ⟨⟨L', hL'⟩, Multiset.mem_coe.mp (hL'.done ▸ hdone)⟩
  exact hkeep.2

/-- When a cleanup has begun, a registered callback is held by a thread that cleans up. -/
theorem cleanup_holds (hL : Accounted s) (he : e ∈ s.registered)
    (hcall : step s (.call w .cleanup) = some s₁) :
    e ∈ s₁.invoked ∨ ∃ i, (s₁.thread i).pc.cleaning = true ∧ Held e i s₁ := by
  obtain ⟨L, hL⟩ := hL
  obtain ⟨hpc, hcall⟩ := step_call hcall
  obtain ⟨it, hit, hs₁⟩ := rcuCleanup_eq_some hcall
  obtain ⟨L', hL', hmove, hqueue, -⟩ := hL.detach hpc hit hs₁
  have hreg : e ∈ L'.registered := hmove.mem_registered (hL.registered ▸ Multiset.mem_coe.mpr he)
  obtain hdone | hq | ⟨i, hi⟩ := hL'.balanced.mem_iff.mp hreg
  · exact Or.inl (Multiset.mem_coe.mp (hL'.done ▸ hdone))
  · rw [hqueue] at hq
    exact absurd hq List.not_mem_nil
  · refine Or.inr ⟨i, ?_, L', hL', Or.inr hi⟩
    by_contra hpc
    rw [(hL'.detached i).eq_nil (Bool.eq_false_iff.mpr hpc)] at hi
    exact absurd hi List.not_mem_nil

/-- A callback registered before a cleanup has been invoked when that cleanup and those
that were running have ended. -/
theorem cleanup_invokes (hL : Accounted s) (he : e ∈ s.registered)
    (hcall : step s (.call w .cleanup) = some s₁) (hr : run step s₁ as = some s₂)
    (hend : ∀ i, (s₁.thread i).pc.cleaning = true →
      ¬ Along step (fun t => (t.thread i).pc.cleaning = true) s₁ as) : e ∈ s₂.invoked := by
  obtain he | ⟨i, hpc, hheld⟩ := cleanup_holds hL he hcall
  · exact invoked_mono (hL.next hcall) hr he
  · obtain halong | ⟨bs, cs, t, rfl, ht, hout⟩ := along_or_exists step
      (fun t => (t.thread i).pc.cleaning = true) s₁ as
    · exact absurd halong (hend i hpc)
    · -- thread `i` has come to the end of its list
      have hinvoked := (run_invariant Held.next hheld ht).invoked (Bool.eq_false_iff.mpr hout)
      obtain ⟨t', ht', hcs⟩ := run_append_eq hr
      obtain rfl := Option.some.inj (ht.symm.trans ht')
      exact invoked_mono (run_invariant Accounted.next (hL.next hcall) ht) hcs hinvoked

/-- The next access of a cleanup that walks a list is defined: no freed node is read. -/
theorem rcu_cleanup_defined (hs : Reachable s) (hpc : (s.thread i).pc.cleaning = true) (ok : Bool) :
    ∃ s', step s (.step i ok) = some s' := by
  obtain ⟨L, hL⟩ := hs.accounted
  have hdet := hL.detached i
  rw [step]
  cases hp : (s.thread i).pc with
  | cleanupNext it tmp =>
    rw [hp] at hdet
    cases htaken : L.taken i with
    | nil =>
      rw [htaken] at hdet
      obtain rfl : it = none := hdet.2
      exact ⟨_, rfl⟩
    | cons e cs =>
      rw [htaken] at hdet
      obtain ⟨-, rfl, -, next, hlink, -⟩ := hdet
      rw [advance, rcuCleanupNext, hlink]
      exact ⟨_, rfl⟩
  | cleanupInvoke it tmp =>
    rw [hp] at hdet
    obtain ⟨e, rest, -, rfl, hnode, -⟩ := hdet
    rw [advance, rcuCleanupInvoke, hnode]
    exact ⟨_, rfl⟩
  | cleanupFree it tmp =>
    obtain ⟨e, -, rfl⟩ := hL.freeing i it tmp hp
    rw [advance, rcuCleanupFree, if_pos (hL.node i e.1 (by rw [hp]; rfl)).2.1]
    exact ⟨_, rfl⟩
  | idle | lockAssert | lockAdd | unlockAssert | unlockSub | syncSize | syncCnt | callMalloc
  | callPush =>
    rw [hp] at hpc
    exact Bool.noConfusion hpc

/-- **Callbacks are neither lost nor repeated.**  The registered callbacks, which have
nodes of their own, are those invoked, those in `rcu->cbs` and those in the lists of
running cleanups.  None is invoked twice, and one that is registered when a cleanup begins
has been invoked once when that cleanup and those begun before it have ended. -/
theorem rcu_callbacks_once [DecidableEq V] [DecidableEq F] (hs : Reachable s) :
    (∃ (cbs : List (Callback V F)) (detached : ι → List (Callback V F)), Queued s cbs ∧
      (∀ i, Detached s (s.thread i).pc (detached i)) ∧
      (s.registered : Multiset (Callback V F)) =
        s.invoked + cbs + ∑ i, (detached i : Multiset (Callback V F))) ∧
    (s.registered.map Prod.fst).Nodup ∧ (∀ e, s.invoked.count e ≤ 1) ∧
    ∀ e ∈ s.registered, ∀ w s₁ as s₂, step s (.call w .cleanup) = some s₁ →
      run step s₁ as = some s₂ →
      (∀ i, (s₁.thread i).pc.cleaning = true →
        ¬ Along step (fun t => (t.thread i).pc.cleaning = true) s₁ as) →
      s₂.invoked.count e = 1 := by
  obtain ⟨L, hL⟩ := hs.accounted
  refine ⟨⟨L.queue, L.taken, hL.queued, hL.detached, ?_⟩, ?_, ?_, ?_⟩
  · rw [← hL.registered, ← hL.done]
    exact hL.balanced.places
  · have hnodup := hL.balanced.nodup
    rw [hL.registered, Multiset.map_coe] at hnodup
    exact Multiset.coe_nodup.mp hnodup
  · intro e
    exact List.nodup_iff_count_le_one.mp hL.nodup_invoked e
  · intro e he w s₁ as s₂ hcall hr hend
    obtain ⟨ptr, hreach⟩ := hs
    obtain ⟨L₂, hL₂⟩ := Reachable.accounted ⟨ptr, (hreach.tail hcall).trans hr⟩
    exact List.count_eq_one_of_mem hL₂.nodup_invoked
      (cleanup_invokes ⟨L, hL⟩ he hcall hr hend)

/-- Two callbacks are registered, and a cleanup walks its list to the end. -/
theorem rcu_callbacks_once_two :
    ∃ s s₁ s₂ : State Bool Unit Nat Unit,
      run step (rcuCreate (fun _ => none)) [.call false (.call () (some 7)), .step false true,
        .step false true, .call true (.call () (some 8)), .step true true, .step true true] =
          some s ∧
      step s (.call false .cleanup) = some s₁ ∧
      run step s₁ (List.replicate 7 (.step false true)) = some s₂ ∧
      s₂.invoked.count (0, (), some 7) = 1 := by
  refine ⟨_, _, _, rfl, rfl, rfl, ?_⟩
  have honce := rcu_callbacks_once (P := Unit) (V := Nat) (F := Unit)
    ⟨fun _ => none, [.call false (.call () (some 7)), .step false true, .step false true,
      .call true (.call () (some 8)), .step true true, .step true true], rfl⟩
  refine honce.2.2.2 (0, (), some 7) (List.mem_cons_of_mem _ List.mem_cons_self) false _
    (List.replicate 7 (.step false true)) _ rfl rfl ?_
  intro i hpc halong
  cases i with
  | true => exact Bool.noConfusion hpc
  | false => exact Bool.noConfusion (halong.last rfl)

end DataStructures.Rcu
