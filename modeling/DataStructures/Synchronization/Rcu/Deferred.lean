import DataStructures.Synchronization.Rcu.Writers

/-!
# Callbacks and readers

A writer that cleans up takes the callbacks of the other writers too, also of those that
still wait for their readers.  As long as no reader has the object of such a callback,
callbacks do not run under readers (`rcu_callbacks_after_readers`).
-/

namespace DataStructures.Rcu

open Lib.Runs Lib.Handoff

variable {ι V F : Type} [DecidableEq ι] [DecidableEq V] [Fintype ι]
  {c c' : Writers ι V F} {a : Act ι Unit V F} {L : Ledger ι (Callback V F)}

/-- What holds of writers whose cleanups are careful. -/
structure Orderly (c : Writers ι V F) (L : Ledger ι (Callback V F)) : Prop where
  slots : Slots c.rcu
  books : Books c.rcu L
  installed : ∀ o, c.rcu.ptr () = some o → o ∈ c.used
  phase : ∀ i o, (c.phase i).object = some o → c.Retired o
  malloc : ∀ i fn o, (c.rcu.thread i).pc = .callMalloc fn (some o) → c.Retired o
  push : ∀ i n fn o, (c.rcu.thread i).pc = .callPush n → c.rcu.nodes n = some (fn, some o) →
    c.Retired o
  registered : ∀ e ∈ c.rcu.registered, ∀ o, e.2.2 = some o → c.Retired o
  /-- a scan has not got past the readers of the object -/
  scan : ∀ i o r id, c.phase i = .synchronizing (some o) → c.rcu.Obtained r o →
    (c.rcu.thread r).slot = some id → Before i id c.rcu
  /-- after the grace period no reader has the object -/
  closed : ∀ o, c.Retired o → c.Open o ∨ ∀ r, ¬ c.rcu.Obtained r o
  taken : ∀ i, ∀ e ∈ L.taken i, ∀ o, e.2.2 = some o → ∀ r, ¬ c.rcu.Obtained r o

/-- Where the action begins a cleanup: no reader has the object of a callback in `rcu->cbs`
whose writer still waits for its readers. -/
def Careful (c : Writers ι V F) (a : Act ι Unit V F) (_ : Writers ι V F) : Prop :=
  a = .call a.thread .cleanup → ∀ cbs, Queued c.rcu cbs → ∀ e ∈ cbs, ∀ o, e.2.2 = some o →
    c.Open o → ∀ r, ¬ c.rcu.Obtained r o

/-- Where the action invokes a callback: no reader has its object. -/
def Safe (c : Writers ι V F) (_ : Act ι Unit V F) (c' : Writers ι V F) : Prop :=
  ∀ e, c'.rcu.invoked = e :: c.rcu.invoked → ∀ o, e.2.2 = some o → ∀ r, ¬ c.rcu.Obtained r o

omit [DecidableEq ι] [DecidableEq V] in
theorem orderly_create (ptr : Pointer V) :
    Orderly (Writers.create ptr : Writers ι V F) Ledger.empty := by
  refine ⟨slots_create, books_create, ?_, nofun, nofun, nofun, ?_, nofun, ?_, ?_⟩
  · intro o ho
    exact Option.mem_toList.mpr ho
  · intro e he
    exact absurd he List.not_mem_nil
  · intro o ho
    exact absurd (Option.mem_toList.mp ho.1) ho.2
  · intro i e he
    exact absurd he List.not_mem_nil

namespace Orderly

theorem next_installed (h : Orderly c L) (hs : c.step a = some c') :
    ∀ o, c'.rcu.ptr () = some o → o ∈ c'.used := by
  intro o ho
  obtain ⟨hptr, -⟩ | ⟨p, new, ha⟩ := Writers.step_ptr hs
  · exact Writers.used_subset hs (h.installed o (hptr ▸ ho))
  · obtain ⟨hptr, hused, -, -⟩ := Writers.exchange_eq hs ha
    rw [hptr] at ho
    rw [hused, ho]
    exact List.mem_append_left _ List.mem_cons_self

/-- An exchange retires the object that was there. -/
theorem exchange_retires (h : Orderly c L) (hs : c.step a = some c') {p : Unit} {new : Pointer V}
    (ha : a = .call a.thread (.exchange p new)) {o : V} (ho : c.rcu.ptr () = some o) :
    c'.Retired o := by
  obtain ⟨hptr, -, hnew, -⟩ := Writers.exchange_eq hs ha
  refine ⟨Writers.used_subset hs (h.installed o ho), ?_⟩
  intro he
  exact hnew o (hptr.symm.trans he) (h.installed o ho)

theorem next_phase (h : Orderly c L) (hs : c.step a = some c') :
    ∀ i o, (c'.phase i).object = some o → c'.Retired o := by
  intro i o ho
  obtain ⟨hphase, -, -⟩ | ⟨f, phase, ha, hafter, -, hphase, -⟩ := Writers.step_cases hs
  · exact (h.phase i o (hphase ▸ ho)).next hs
  · rw [hphase] at ho
    obtain rfl | hi := eq_or_ne i a.thread
    · rw [Function.update_self] at ho
      obtain hold | ⟨p, new, rfl, hptr⟩ := Phase.after_object hafter ho
      · exact (h.phase _ o hold).next hs
      · exact h.exchange_retires hs ha hptr
    · rw [Function.update_of_ne hi] at ho
      exact (h.phase i o ho).next hs

theorem next_malloc (h : Orderly c L) (hs : c.step a = some c') : ∀ i fn o,
    (c'.rcu.thread i).pc = .callMalloc fn (some o) → c'.Retired o := by
  intro i fn o hpc
  refine Writers.Retired.next ?_ hs
  obtain rfl | hi := eq_or_ne i a.thread
  · have hcall := (step_memory (Writers.step_rcu hs)).callMalloc hpc
    obtain ⟨-, -, i, ok, rfl⟩ | ⟨f, phase, ha, hafter, -⟩ := Writers.step_cases hs
    · exact nomatch hcall
    · obtain ⟨-, rfl⟩ := Act.call.injEq .. ▸ ha.symm.trans hcall
      exact h.phase _ o (Phase.after_call hafter)
  · rw [step_thread_of_ne h.slots (Writers.step_rcu hs) hi] at hpc
    exact h.malloc i fn o hpc

theorem next_push (h : Orderly c L) (hs : c.step a = some c') : ∀ i n fn o,
    (c'.rcu.thread i).pc = .callPush n → c'.rcu.nodes n = some (fn, some o) → c'.Retired o := by
  intro i n fn o hpc hnode
  have hmem := step_memory (Writers.step_rcu hs)
  refine Writers.Retired.next ?_ hs
  obtain rfl | hi := eq_or_ne i a.thread
  · obtain ⟨fn', ptr, hold, hnode'⟩ := hmem.callPush hpc
    obtain ⟨rfl, rfl⟩ := Prod.mk.injEq .. ▸ Option.some.inj (hnode.symm.trans hnode')
    exact h.malloc _ fn o hold
  · rw [step_thread_of_ne h.slots (Writers.step_rcu hs) hi] at hpc
    rw [h.books.nodes_eq hi (by rw [hpc]; rfl) hmem] at hnode
    exact h.push i n fn o hpc hnode

theorem next_registered (h : Orderly c L) (hs : c.step a = some c') :
    ∀ e ∈ c'.rcu.registered, ∀ o, e.2.2 = some o → c'.Retired o := by
  intro e he o ho
  refine Writers.Retired.next ?_ hs
  obtain hold | ⟨hpc, hnode⟩ := (step_memory (Writers.step_rcu hs)).mem_registered he
  · exact h.registered e hold o ho
  · exact h.push _ e.1 e.2.1 o hpc (by rw [hnode, ← ho])

theorem next_scan (h : Orderly c L) (hs : c.step a = some c') : ∀ i o r id,
    c'.phase i = .synchronizing (some o) → c'.rcu.Obtained r o →
      (c'.rcu.thread r).slot = some id → Before i id c'.rcu := by
  intro i o r id hphase hr hslot
  have hrcu := Writers.step_rcu hs
  -- the phase is the one before, or the writer has just called `rcu_synchronize`
  have hcases : c.phase i = .synchronizing (some o) ∨ a = .call i .synchronize := by
    obtain ⟨hph, -, -⟩ | ⟨f, phase, ha, hafter, -, hph, -⟩ := Writers.step_cases hs
    · exact Or.inl (hph ▸ hphase)
    · rw [hph] at hphase
      obtain rfl | hi := eq_or_ne i a.thread
      · rw [Function.update_self] at hphase
        subst hphase
        obtain hold | rfl := Phase.after_synchronizing hafter
        · exact Or.inl hold
        · exact Or.inr ha
      · rw [Function.update_of_ne hi] at hphase
        exact Or.inl hphase
  obtain hold | rfl := hcases
  · have hr' := (h.phase i o (by rw [hold]; rfl)).obtained h.slots hs hr
    obtain ⟨id', hslot', hid', hcnt⟩ := h.slots.of_obtained hr'
    obtain rfl := Option.some.inj
      (hslot.symm.trans ((step_section h.slots hrcu).slot_eq h.slots hslot'))
    exact (h.scan i o r id hold hr' hslot').next h.slots hid' hcnt hrcu
  · exact synchronize_before hrcu

theorem next_closed (h : Orderly c L) (hs : c.step a = some c') :
    ∀ o, c'.Retired o → c'.Open o ∨ ∀ r, ¬ c'.rcu.Obtained r o := by
  intro o ho
  by_cases hold : c.Retired o
  · obtain ⟨i, hi⟩ | hnone := h.closed o hold
    · by_cases hr : ∃ r, c'.rcu.Obtained r o
      · -- while a reader has the object the writer does not get past `rcu_synchronize`
        obtain ⟨r, hr⟩ := hr
        refine Or.inl ⟨i, ?_⟩
        obtain hi | hi | hi := Writers.open_phase hs hi
        · exact Or.inl hi
        · exact Or.inr (Or.inl hi)
        · obtain ⟨id, hslot, -⟩ := (h.slots.next (Writers.step_rcu hs)).of_obtained hr
          obtain ⟨k, hk, -⟩ := h.next_scan hs i o r id hi hr hslot
          exact Or.inr (Or.inr ⟨hi, by rw [hk]; exact Option.some_ne_none k⟩)
      · exact Or.inr (fun r hr' => hr ⟨r, hr'⟩)
    · exact Or.inr (fun r hr => hnone r (hold.obtained h.slots hs hr))
  · -- the object has just been replaced
    obtain ⟨hptr, hused⟩ | ⟨p, new, ha⟩ := Writers.step_ptr hs
    · exact absurd ⟨hused ▸ ho.1, hptr ▸ ho.2⟩ hold
    · obtain ⟨hptr, hused, -, hphase⟩ := Writers.exchange_eq hs ha
      refine Or.inl ⟨a.thread, Or.inl ?_⟩
      obtain ⟨hmem, hne⟩ := ho
      rw [hused] at hmem
      rw [hphase]
      obtain hnew | hmem := List.mem_append.mp hmem
      · exact absurd (hptr.trans (Option.mem_toList.mp hnew)) hne
      · by_contra hc
        exact hold ⟨hmem, fun he => hc (he ▸ rfl)⟩

/-- What is to be shown of the books after an action: a callback that has come to be
detached is for no object that a reader has. -/
theorem of_books {L' : Ledger ι (Callback V F)} (h : Orderly c L) (hs : c.step a = some c')
    (hL' : Books c'.rcu L') (htaken : ∀ i, ∀ e ∈ L'.taken i, e ∈ L.taken i ∨ e ∈ L.queue ∧
      ∀ o, e.2.2 = some o → ∀ r, ¬ c.rcu.Obtained r o) : Orderly c' L' where
  slots := h.slots.next (Writers.step_rcu hs)
  books := hL'
  installed := h.next_installed hs
  phase := h.next_phase hs
  malloc := h.next_malloc hs
  push := h.next_push hs
  registered := h.next_registered hs
  scan := h.next_scan hs
  closed := h.next_closed hs
  taken i e he o ho r hr := by
    have hretired : ∀ {e}, (e ∈ L.queue ∨ ∃ i, e ∈ L.taken i) → e.2.2 = some o →
        c.Retired o := by
      intro e he ho
      have hreg := h.books.balanced.mem_iff.mpr (Or.inr he)
      rw [h.books.registered] at hreg
      exact h.registered e (Multiset.mem_coe.mp hreg) o ho
    obtain hold | ⟨hqueue, hfree⟩ := htaken i e he
    · exact h.taken i e hold o ho r ((hretired (Or.inr ⟨i, hold⟩) ho).obtained h.slots hs hr)
    · exact hfree o ho r ((hretired (Or.inl hqueue) ho).obtained h.slots hs hr)

omit [DecidableEq ι] [DecidableEq V] [Fintype ι] in
theorem safe_of_eq (h : c'.rcu.invoked = c.rcu.invoked) : Safe c a c' := by
  intro e he
  exact absurd (he.symm.trans h) (List.cons_ne_self e c.rcu.invoked)

/-- **A careful action keeps the order, and runs no callback under a reader.** -/
theorem next (h : Orderly c L) (hs : c.step a = some c') (hcareful : Careful c a c') :
    (∃ L', Orderly c' L') ∧ Safe c a c' := by
  have hkeep : Books c'.rcu L → ∃ L', Orderly c' L' :=
    fun hL => ⟨L, h.of_books hs hL (fun i e he => Or.inl he)⟩
  cases step_memory (Writers.step_rcu hs) with
  | quiet hsame hth hold hpc =>
    exact ⟨hkeep (h.books.quiet hsame hth hold hpc), safe_of_eq hsame.invoked⟩
  | malloc hpc hrcu => exact ⟨hkeep (h.books.malloc hpc hrcu), safe_of_eq (by rw [hrcu]; rfl)⟩
  | push hpc hlinks hnode hrcu =>
    obtain ⟨L', hL', -, htaken⟩ := h.books.push hpc hlinks hnode hrcu
    refine ⟨⟨L', h.of_books hs hL' ?_⟩, safe_of_eq (by rw [hrcu]; rfl)⟩
    intro i e he
    exact Or.inl (htaken ▸ he)
  | detach ha hpc hit hrcu =>
    obtain ⟨L', hL', -, -, htaken⟩ := h.books.detach hpc hit hrcu
    refine ⟨⟨L', h.of_books hs hL' ?_⟩, safe_of_eq (by rw [hrcu]; rfl)⟩
    intro i e he
    rw [htaken] at he
    obtain rfl | hi := eq_or_ne i a.thread
    · rw [Function.update_self] at he
      refine Or.inr ⟨he, ?_⟩
      intro o ho r hr
      have hreg := h.books.balanced.mem_iff.mpr (Or.inr (Or.inl he))
      rw [h.books.registered] at hreg
      obtain hopen | hclosed := h.closed o (h.registered e (Multiset.mem_coe.mp hreg) o ho)
      · exact hcareful ha L.queue h.books.queued e he o ho hopen r hr
      · exact hclosed r hr
    · rw [Function.update_of_ne hi] at he
      exact Or.inl he
  | last hpc hrcu => exact ⟨hkeep (hrcu ▸ h.books.last hpc), safe_of_eq (by rw [hrcu]; rfl)⟩
  | next hpc hnext hrcu =>
    exact ⟨hkeep (hrcu ▸ h.books.next hpc hnext), safe_of_eq (by rw [hrcu]; rfl)⟩
  | invoke hpc hnode hrcu =>
    obtain ⟨L', e, rest, hL', -, htaken, htaken', hinvoked⟩ := h.books.invoke hpc hnode hrcu
    refine ⟨⟨L', h.of_books hs hL' ?_⟩, ?_⟩
    · intro i d hd
      rw [htaken'] at hd
      obtain rfl | hi := eq_or_ne i a.thread
      · rw [Function.update_self] at hd
        exact Or.inl (htaken ▸ List.mem_cons_of_mem e hd)
      · rw [Function.update_of_ne hi] at hd
        exact Or.inl hd
    · intro d hd
      obtain rfl := (List.cons.inj (hd.symm.trans hinvoked)).1
      exact h.taken a.thread d (htaken ▸ List.mem_cons_self)
  | free hpc _ hrcu => exact ⟨hkeep (h.books.free hpc hrcu), safe_of_eq (by rw [hrcu]; rfl)⟩

end Orderly

/-! ### A cleanup that is not careful -/

omit [DecidableEq V] [Fintype ι] in
theorem obtained_goto {P : Type} {s : State ι P V F} {i r : ι} {pc : Pc V F} {o : V}
    (hr : s.Obtained r o) : (s.goto i pc).Obtained r o := by
  obtain ⟨p, k, hm⟩ := hr
  refine ⟨p, k, ?_⟩
  obtain rfl | hne := eq_or_ne r i
  · rwa [State.goto, put_thread_self]
  · rwa [State.goto, put_thread_of_ne _ _ hne]

omit [Fintype ι] in
theorem Writers.step_of_rcu {i : ι} {ok : Bool} {s : State ι Unit V F}
    (h : Rcu.step c.rcu (.step i ok) = some s) :
    c.step (.step i ok) = some { c with rcu := s } := by
  rw [Writers.step, h]
  rfl

omit [DecidableEq V] in
/-- One round of the loop of `rcu_cleanup`. -/
theorem walk_round {s : State ι Unit V F} {w : ι} {it : Option Node} {d : Callback V F}
    {rest : List (Callback V F)} (hL : Books s L) (hpc : (s.thread w).pc = .cleanupNext it it)
    (htaken : L.taken w = d :: rest) : ∃ s₁ s₂ s₃ L' next,
      Rcu.step s (.step w true) = some s₁ ∧ Rcu.step s₁ (.step w true) = some s₂ ∧
      Rcu.step s₂ (.step w true) = some s₃ ∧ s₂.invoked = d :: s₁.invoked ∧
      Books s₃ L' ∧ (s₃.thread w).pc = .cleanupNext next next ∧ L'.taken w = rest ∧
      ∀ r o, s.Obtained r o → s₁.Obtained r o ∧ s₃.Obtained r o := by
  have hdet := hL.detached w
  rw [hpc, htaken] at hdet
  obtain ⟨-, rfl, hnode, next, hlink, -⟩ := hdet
  obtain ⟨s₁, hs₁⟩ : ∃ s₁, s₁ = s.goto w (.cleanupInvoke next (some (.node d.1))) := ⟨_, rfl⟩
  obtain ⟨s₂, hs₂⟩ : ∃ s₂, s₂ = { s₁ with invoked := d :: s₁.invoked }.goto w
    (.cleanupFree next (some (.node d.1))) := ⟨_, rfl⟩
  obtain ⟨s₃, hs₃⟩ : ∃ s₃, s₃ = { s₂ with
    links := Function.update s₂.links (.node d.1) none
    nodes := Function.update s₂.nodes d.1 none }.goto w (.cleanupNext next next) := ⟨_, rfl⟩
  have hpc₁ : (s₁.thread w).pc = .cleanupInvoke next (some (.node d.1)) := by
    rw [hs₁, goto_pc_self]
  have hpc₂ : (s₂.thread w).pc = .cleanupFree next (some (.node d.1)) := by
    rw [hs₂, goto_pc_self]
  have hnode₁ : s₁.nodes d.1 = some d.2 := by
    rw [hs₁]
    exact hnode
  have hnode₂ : s₂.nodes d.1 = some d.2 := by
    rw [hs₂]
    exact hnode₁
  have hL₁ : Books s₁ L := hs₁ ▸ hL.next hpc hlink
  obtain ⟨L', e, rest', hL₂, -, htaken₁, htaken₂, -⟩ := hL₁.invoke hpc₁ hnode₁ hs₂
  obtain ⟨rfl, rfl⟩ := List.cons.inj (htaken.symm.trans htaken₁)
  refine ⟨s₁, s₂, s₃, L', next, ?_, ?_, ?_, ?_, hL₂.free hpc₂ hs₃, ?_, ?_, ?_⟩
  · rw [Rcu.step, hpc, advance, rcuCleanupNext, hlink, hs₁]
    rfl
  · rw [Rcu.step, hpc₁, advance, rcuCleanupInvoke, hnode₁, hs₂]
    rfl
  · rw [Rcu.step, hpc₂, advance, rcuCleanupFree, if_pos (by rw [hnode₂]; rfl), hs₃]
  · rw [hs₂]
    rfl
  · rw [hs₃, goto_pc_self]
  · rw [htaken₂, Function.update_self]
  · intro r o hr
    have hr₁ : s₁.Obtained r o := hs₁ ▸ obtained_goto hr
    have hr₂ : s₂.Obtained r o := hs₂ ▸ obtained_goto (s := { s₁ with invoked := _ }) hr₁
    have hr₃ : s₃.Obtained r o := hs₃ ▸ obtained_goto (s := { s₂ with links := _, nodes := _ }) hr₂
    exact ⟨hr₁, hr₃⟩

/-- A thread that walks its list to the callback of an object that a reader has runs that
callback under the reader. -/
theorem walk_unsafe {w r : ι} {it : Option Node} {e : Callback V F} {o : V}
    {cs : List (Callback V F)} (hL : Books c.rcu L)
    (hpc : (c.rcu.thread w).pc = .cleanupNext it it) (hcs : L.taken w = cs) (he : e ∈ cs)
    (ho : e.2.2 = some o) (hr : c.rcu.Obtained r o) : ∃ as, ¬ Each Writers.step Safe c as := by
  induction cs generalizing c L it with
  | nil => exact absurd he List.not_mem_nil
  | cons d rest ih =>
    obtain ⟨s₁, s₂, s₃, L', next, h₁, h₂, h₃, hinvoked, hL', hpc', htaken, hobtained⟩ :=
      walk_round hL hpc hcs
    have hs₁ := Writers.step_of_rcu h₁
    have hs₂ := Writers.step_of_rcu (c := { c with rcu := s₁ }) h₂
    have hs₃ := Writers.step_of_rcu (c := { c with rcu := s₂ }) h₃
    obtain rfl | hrest := List.mem_cons.mp he
    · refine ⟨[.step w true, .step w true], ?_⟩
      intro hsafe
      exact ((hsafe.tail hs₁) _ hs₂).1 e hinvoked o ho r (hobtained r o hr).1
    · obtain ⟨as, has⟩ := ih (c := { c with rcu := s₃ }) hL' hpc' htaken hrest (hobtained r o hr).2
      refine ⟨.step w true :: .step w true :: .step w true :: as, ?_⟩
      intro hsafe
      exact has (((hsafe.tail hs₁).tail hs₂).tail hs₃)

omit [DecidableEq ι] [DecidableEq V] [Fintype ι] in
theorem Queued.unique {P : Type} {s : State ι P V F} {cs ds : List (Callback V F)}
    (h : Queued s cs) (h' : Queued s ds) : cs = ds := by
  obtain ⟨head, hhead, hlist⟩ := h
  obtain ⟨head', hhead', hlist'⟩ := h'
  obtain rfl := Option.some.inj (hhead.symm.trans hhead')
  exact hlist.unique hlist'

/-- A cleanup that is not careful may run a callback under a reader. -/
theorem careless_unsafe (hL : Books c.rcu L) (hs : c.step a = some c') (h : ¬ Careful c a c') :
    ∃ as, ¬ Each Writers.step Safe c' as := by
  rw [Careful] at h
  push Not at h
  obtain ⟨ha, cbs, hcbs, e, he, o, ho, -, r, hr⟩ := h
  have hrcu := Writers.step_rcu hs
  rw [ha] at hrcu
  obtain ⟨hpc, hcall⟩ := step_call hrcu
  obtain ⟨it, hit, hc'⟩ := rcuCleanup_eq_some hcall
  obtain ⟨L', hL', -, -, htaken⟩ := hL.detach hpc hit hc'
  rw [hcbs.unique hL.queued] at he
  have hpc' : (c'.rcu.thread a.thread).pc = .cleanupNext it it := by
    rw [hc', goto_pc_self]
  have hr' : c'.rcu.Obtained r o := by
    rw [hc']
    exact obtained_goto hr
  exact walk_unsafe hL' hpc' (htaken ▸ Function.update_self ..) he ho hr'

/-- **Callbacks do not run under readers** in runs whose cleanups are careful, and after a
cleanup that is not careful the run can go on to a callback that does. -/
theorem rcu_callbacks_after_readers (ptr : Pointer V) :
    (∀ as, Each Writers.step Careful (Writers.create ptr : Writers ι V F) as →
      Each Writers.step Safe (Writers.create ptr : Writers ι V F) as) ∧
    ∀ as c a c', run Writers.step (Writers.create ptr : Writers ι V F) as = some c →
      c.step a = some c' → ¬ Careful c a c' → ∃ bs, ¬ Each Writers.step Safe c' bs := by
  refine ⟨?_, ?_⟩
  · intro as h
    refine h.imp (P := fun c => ∃ L, Orderly c L) ?_ ⟨Ledger.empty, orderly_create ptr⟩
    rintro c a c' ⟨L, hL⟩ hs hcareful
    exact hL.next hs hcareful
  · intro as c a c' hr hs hcareless
    obtain ⟨L, hL⟩ := run_invariant (P := fun c => Accounted c.rcu)
      (fun hc hs => hc.next (Writers.step_rcu hs)) ⟨Ledger.empty, books_create⟩ hr
    exact careless_unsafe hL hs hcareless

/-- A writer cleans up after its reader has left. -/
theorem rcu_callbacks_after_readers_one : Each Writers.step Safe
    (Writers.create (some 0) : Writers Bool Nat Unit)
    [.call false .registerThread, .call false .readLock, .step false true, .step false true,
      .call false (.dereference ()), .call true (.exchange () (some 1)),
      .call true (.call () (some 0)), .step true true, .step true true,
      .call false .readUnlock, .step false true, .step false true, .call true .synchronize,
      .step true true, .step true true, .step true true, .call true .cleanup, .step true true,
      .step true true] := by
  refine (rcu_callbacks_after_readers (some 0)).1 _ ?_
  refine .cons rfl nofun (.cons rfl nofun (.cons rfl nofun (.cons rfl nofun ?_)))
  refine .cons rfl nofun (.cons rfl nofun (.cons rfl nofun (.cons rfl nofun ?_)))
  refine .cons rfl nofun (.cons rfl nofun (.cons rfl nofun (.cons rfl nofun ?_)))
  refine .cons rfl nofun (.cons rfl nofun (.cons rfl nofun (.cons rfl nofun ?_)))
  refine .cons rfl ?_ (.cons rfl nofun (.cons rfl nofun trivial))
  rintro - cbs - e - o - - r ⟨p, k, hm⟩
  cases r with
  | false | true => exact absurd hm List.not_mem_nil

/-- Two writers and a reader: the first writer runs the callback of the second one, which
has not called `rcu_synchronize` yet, while the reader has the object. -/
theorem rcu_cleanup_under_reader :
    ¬ ∀ (ptr : Pointer Nat) (as : List (Act (Fin 3) Unit Nat Unit)),
      Each Writers.step Safe (Writers.create ptr) as := by
  intro h
  have hsafe := (h (some 0) ([.call 1 (.exchange () (some 1)), .call 1 (.call () (some 0)),
    .step 1 true, .step 1 true, .call 1 .synchronize, .step 1 true,
    .call 0 .registerThread, .call 0 .readLock, .step 0 true, .step 0 true,
    .call 0 (.dereference ()), .call 2 (.exchange () (some 2)), .call 2 (.call () (some 1)),
    .step 2 true, .step 2 true, .call 1 .cleanup, .step 1 true] ++ [.step 1 true])).at rfl rfl
  exact hsafe (1, (), some 1) rfl 1 rfl 0 ⟨(), 1, List.mem_cons_self⟩

end DataStructures.Rcu
