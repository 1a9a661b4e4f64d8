import DataStructures.Synchronization.Rcu.Accounts
import DataStructures.Synchronization.Rcu.Synchronize

/-!
# Writers that defer callbacks

How `rcu.h` is meant to be used, as in `writer_thread` of `test/rcu.c` with a cleanup at
the end of a round: a writer replaces the shared pointer by an object that has not been
used before, passes the object it got to `rcu_call`, calls `rcu_synchronize` and then
`rcu_cleanup`.  In between, and in all other threads, there may be readers.

A replaced object is retired: no reader obtains it any more (`State.Obtained`).  It is open
until its writer has returned from `rcu_synchronize`, and then no reader has it.
-/

namespace DataStructures.Rcu

open Lib.Runs Lib.Handoff

variable {ι V F : Type}

/-- How far a writer is: it has replaced an object, has passed it to `rcu_call`, or has
called `rcu_synchronize`. -/
inductive Phase (V : Type)
  | free
  | replaced (o : Pointer V)
  | called (o : Pointer V)
  | synchronizing (o : Pointer V)

/-- The object a writer has replaced in this round. -/
def Phase.object : Phase V → Pointer V
  | .free => none
  | .replaced o | .called o | .synchronizing o => o

/-- The phase after a call, `none` if the writer may not make the call now; `old` is the
object that the shared pointer points to. -/
def Phase.after [DecidableEq V] (old : Pointer V) : Phase V → Call Unit V F → Option (Phase V)
  | phase, .registerThread | phase, .readLock | phase, .readUnlock | phase, .dereference _ =>
      some phase
  | .free, .exchange _ _ => some (.replaced old)
  | .replaced (some o), .call _ ptr => if ptr = some o then some (.called (some o)) else none
  | .replaced none, .synchronize => some (.synchronizing none)
  | .called o, .synchronize => some (.synchronizing o)
  | .synchronizing _, .cleanup => some .free
  | _, _ => none

/-- The object that a call installs. -/
def Call.installs : Call Unit V F → Pointer V
  | .exchange _ new => new
  | _ => none

/-- The RCU context and the shared pointer, with the phases of the writers and the objects
that have been installed so far. -/
structure Writers (ι V F : Type) where
  rcu : State ι Unit V F
  phase : ι → Phase V
  used : List V

/-- The shared pointer points to `ptr`. -/
def Writers.create (ptr : Pointer V) : Writers ι V F where
  rcu := rcuCreate (fun _ => ptr)
  phase := fun _ => .free
  used := ptr.toList

/-- One action of a thread that keeps to the use of the library. -/
def Writers.step [DecidableEq ι] [DecidableEq V] (c : Writers ι V F) :
    Act ι Unit V F → Option (Writers ι V F)
  | .step i ok => do
      let rcu ← Rcu.step c.rcu (.step i ok)
      return { c with rcu := rcu }
  | .call i f => do
      let phase ← (c.phase i).after (c.rcu.ptr ()) f
      let rcu ← Rcu.step c.rcu (.call i f)
      if f.installs.all (fun v => v ∉ c.used) then
        return {
          rcu := rcu
          phase := Function.update c.phase i phase
          used := f.installs.toList ++ c.used }
      else none

/-- Thread `r` is in a section in which it has obtained `o` by `rcu_dereference`. -/
def State.Obtained {P : Type} (s : State ι P V F) (r : ι) (o : V) : Prop :=
  ∃ p k, (p, k, some o) ∈ (s.thread r).loads

/-- The object has been installed and replaced. -/
def Writers.Retired (c : Writers ι V F) (o : V) : Prop := o ∈ c.used ∧ c.rcu.ptr () ≠ some o

/-- The writer that replaced the object has not returned from its `rcu_synchronize`. -/
def Writers.Open (c : Writers ι V F) (o : V) : Prop :=
  ∃ i, c.phase i = .replaced (some o) ∨ c.phase i = .called (some o) ∨
    c.phase i = .synchronizing (some o) ∧ (c.rcu.thread i).pc.scan ≠ none

variable [DecidableEq ι] [DecidableEq V] {c c' : Writers ι V F} {a : Act ι Unit V F} {i r : ι}
  {o : V} {f : Call Unit V F} {phase phase' : Phase V} {old : Pointer V}

/-! ### One action of a writer -/

/-- What an action does to the phases. -/
theorem Writers.step_cases (h : c.step a = some c') :
    c'.phase = c.phase ∧ c'.used = c.used ∧ (∃ i ok, a = .step i ok) ∨
      ∃ f phase, a = .call a.thread f ∧
        (c.phase a.thread).after (c.rcu.ptr ()) f = some phase ∧
        (∀ v, f.installs = some v → v ∉ c.used) ∧
        c'.phase = Function.update c.phase a.thread phase ∧
        c'.used = f.installs.toList ++ c.used := by
  cases a with
  | step i ok =>
    simp only [Writers.step, Option.bind_eq_bind, Option.bind_eq_some_iff] at h
    obtain ⟨rcu, -, h⟩ := h
    obtain rfl := Option.some.inj h
    exact Or.inl ⟨rfl, rfl, i, ok, rfl⟩
  | call i f =>
    simp only [Writers.step, Option.bind_eq_bind, Option.bind_eq_some_iff] at h
    obtain ⟨phase, hphase, rcu, -, h⟩ := h
    split at h
    · rename_i hnew
      obtain rfl := Option.some.inj h
      refine Or.inr ⟨f, phase, rfl, hphase, ?_, rfl, rfl⟩
      intro v hv
      rw [hv, Option.all_some] at hnew
      exact of_decide_eq_true hnew
    · exact nomatch h

theorem Writers.step_rcu (h : c.step a = some c') : Rcu.step c.rcu a = some c'.rcu := by
  cases a with
  | step i ok =>
    simp only [Writers.step, Option.bind_eq_bind, Option.bind_eq_some_iff] at h
    obtain ⟨rcu, hrcu, h⟩ := h
    obtain rfl := Option.some.inj h
    exact hrcu
  | call i f =>
    simp only [Writers.step, Option.bind_eq_bind, Option.bind_eq_some_iff] at h
    obtain ⟨phase, -, rcu, hrcu, h⟩ := h
    split at h
    · obtain rfl := Option.some.inj h
      exact hrcu
    · exact nomatch h

omit [DecidableEq ι] in
/-- A writer gets an object by the exchange only. -/
theorem Phase.after_object (h : phase.after old f = some phase') (ho : phase'.object = some o) :
    phase.object = some o ∨ ∃ p new, f = .exchange p new ∧ old = some o := by
  rw [Phase.after.eq_def] at h
  split at h
  · exact Or.inl (Option.some.inj h ▸ ho)
  · exact Or.inl (Option.some.inj h ▸ ho)
  · exact Or.inl (Option.some.inj h ▸ ho)
  · exact Or.inl (Option.some.inj h ▸ ho)
  · obtain rfl := Option.some.inj h
    exact Or.inr ⟨_, _, rfl, ho⟩
  · split at h
    · obtain rfl := Option.some.inj h
      exact Or.inl ho
    · exact nomatch h
  · obtain rfl := Option.some.inj h
    exact nomatch ho
  · obtain rfl := Option.some.inj h
    exact Or.inl ho
  · obtain rfl := Option.some.inj h
    exact nomatch ho
  · exact nomatch h

omit [DecidableEq ι] in
theorem Phase.after_replaced (h : (Phase.replaced (some o)).after old f = some phase') :
    phase' = .replaced (some o) ∨ phase' = .called (some o) := by
  cases f with
  | registerThread | readLock | readUnlock | dereference p =>
    exact Or.inl (Option.some.inj h).symm
  | call fn ptr =>
    rw [Phase.after] at h
    split at h
    · exact Or.inr (Option.some.inj h).symm
    · exact nomatch h
  | assignPointer p new | exchange p new | synchronize | cleanup => exact nomatch h

omit [DecidableEq ι] in
theorem Phase.after_called (h : (Phase.called (some o)).after old f = some phase') :
    phase' = .called (some o) ∨ phase' = .synchronizing (some o) ∧ f = .synchronize := by
  cases f with
  | registerThread | readLock | readUnlock | dereference p =>
    exact Or.inl (Option.some.inj h).symm
  | synchronize => exact Or.inr ⟨(Option.some.inj h).symm, rfl⟩
  | assignPointer p new | exchange p new | call fn ptr | cleanup => exact nomatch h

omit [DecidableEq ι] in
/-- A writer comes to wait for readers by calling `rcu_synchronize`. -/
theorem Phase.after_synchronizing (h : phase.after old f = some (.synchronizing (some o))) :
    phase = .synchronizing (some o) ∨ f = .synchronize := by
  rw [Phase.after.eq_def] at h
  split at h
  · exact Or.inl (Option.some.inj h)
  · exact Or.inl (Option.some.inj h)
  · exact Or.inl (Option.some.inj h)
  · exact Or.inl (Option.some.inj h)
  · exact nomatch h
  · split at h
    · exact nomatch h
    · exact nomatch h
  · exact nomatch h
  · exact Or.inr rfl
  · exact nomatch h
  · exact nomatch h

omit [DecidableEq ι] in
/-- A writer passes on the object it has replaced. -/
theorem Phase.after_call {fn : F} {ptr : Pointer V}
    (h : phase.after old (.call fn ptr : Call Unit V F) = some phase') : phase.object = ptr := by
  match phase, h with
  | .replaced (some o), h =>
    rw [Phase.after] at h
    split at h
    · rename_i hptr
      exact hptr.symm
    · exact nomatch h

omit [DecidableEq ι] in
theorem Phase.after_exchange {p : Unit} {new : Pointer V}
    (h : phase.after old (.exchange p new : Call Unit V F) = some phase') :
    phase' = .replaced old := by
  match phase, h with
  | .free, h => exact (Option.some.inj h).symm

omit [DecidableEq ι] in
/-- A writer does not use `rcu_assign_pointer`. -/
theorem Phase.after_assignPointer {p : Unit} {new : Pointer V} :
    phase.after old (.assignPointer p new : Call Unit V F) = none := by
  match phase with
  | .free | .replaced none | .replaced (some _) | .called _ | .synchronizing _ => rfl

/-- The exchange of a writer. -/
theorem Writers.exchange_eq {p : Unit} {new : Pointer V} (h : c.step a = some c')
    (ha : a = .call a.thread (.exchange p new)) :
    c'.rcu.ptr () = new ∧ c'.used = new.toList ++ c.used ∧ (∀ v, new = some v → v ∉ c.used) ∧
      c'.phase a.thread = .replaced (c.rcu.ptr ()) := by
  obtain ⟨-, -, i, ok, rfl⟩ | ⟨f, phase, hf, hafter, hnew, hphase, hused⟩ := step_cases h
  · cases ha
  · obtain ⟨-, rfl⟩ := Act.call.injEq .. ▸ hf.symm.trans ha
    obtain rfl := Phase.after_exchange hafter
    refine ⟨?_, hused, hnew, by rw [hphase, Function.update_self]⟩
    have hrcu := step_rcu h
    rw [ha] at hrcu
    rw [← Option.some.inj (step_call hrcu).2]
    exact Function.update_self () new c.rcu.ptr

/-- Only an exchange writes the shared pointer and uses an object. -/
theorem Writers.step_ptr (h : c.step a = some c') : c'.rcu.ptr = c.rcu.ptr ∧ c'.used = c.used ∨
    ∃ p new, a = .call a.thread (.exchange p new) := by
  obtain ⟨-, hused, i, ok, rfl⟩ | ⟨f, phase, ha, hafter, -, -, hused⟩ := step_cases h
  · obtain ⟨hptr, -⟩ | ⟨p, new, hcall | hcall, -⟩ := step_shared (step_rcu h)
    · exact Or.inl ⟨hptr, hused⟩
    · exact nomatch hcall
    · exact nomatch hcall
  · obtain ⟨hptr, -⟩ | ⟨p, new, hcall | hcall, -⟩ := step_shared (step_rcu h)
    · cases f with
      | exchange p new => exact Or.inr ⟨p, new, ha⟩
      | registerThread | readLock | readUnlock | assignPointer | dereference | synchronize | call
      | cleanup => exact Or.inl ⟨hptr, hused⟩
    · obtain ⟨-, rfl⟩ := Act.call.injEq .. ▸ ha.symm.trans hcall
      rw [Phase.after_assignPointer] at hafter
      exact nomatch hafter
    · exact Or.inr ⟨p, new, hcall⟩

theorem Writers.used_subset (h : c.step a = some c') (ho : o ∈ c.used) : o ∈ c'.used := by
  obtain ⟨-, hused, -⟩ | ⟨f, phase, -, -, -, -, hused⟩ := step_cases h
  · exact hused ▸ ho
  · rw [hused]
    exact List.mem_append_right _ ho

theorem Writers.Retired.next (ho : c.Retired o) (h : c.step a = some c') : c'.Retired o := by
  refine ⟨used_subset h ho.1, ?_⟩
  obtain ⟨hptr, -⟩ | ⟨p, new, ha⟩ := step_ptr h
  · rw [hptr]
    exact ho.2
  · obtain ⟨hptr, -, hnew, -⟩ := exchange_eq h ha
    rw [hptr]
    intro he
    exact hnew o he ho.1

/-- An object is open until its writer returns from `rcu_synchronize`. -/
theorem Writers.open_phase (h : c.step a = some c') (hi : c.phase i = .replaced (some o) ∨
      c.phase i = .called (some o) ∨
      c.phase i = .synchronizing (some o) ∧ (c.rcu.thread i).pc.scan ≠ none) :
    c'.phase i = .replaced (some o) ∨ c'.phase i = .called (some o) ∨
      c'.phase i = .synchronizing (some o) := by
  have hsame : c'.phase i = c.phase i → c'.phase i = .replaced (some o) ∨
      c'.phase i = .called (some o) ∨ c'.phase i = .synchronizing (some o) := by
    intro he
    rw [he]
    exact hi.imp_right (Or.imp_right And.left)
  obtain ⟨hphase, -⟩ | ⟨f, phase, ha, hafter, -, hphase, -⟩ := step_cases h
  · exact hsame (by rw [hphase])
  · obtain rfl | hne := eq_or_ne i a.thread
    · rw [hphase, Function.update_self]
      obtain hi | hi | ⟨-, hscan⟩ := hi
      · rw [hi] at hafter
        exact (Phase.after_replaced hafter).imp_right Or.inl
      · rw [hi] at hafter
        exact Or.inr ((Phase.after_called hafter).imp_right And.left)
      · rw [ha] at h
        rw [(step_call (step_rcu h)).1] at hscan
        exact absurd rfl hscan
    · exact hsame (by rw [hphase, Function.update_of_ne hne])

/-- A retired object is not obtained any more. -/
theorem Writers.Retired.obtained (ho : c.Retired o) (hs : Slots c.rcu) (h : c.step a = some c')
    (hr : c'.rcu.Obtained r o) : c.rcu.Obtained r o := by
  obtain ⟨p, k, hm⟩ := hr
  obtain hold | ⟨-, hv⟩ := (step_section hs (step_rcu h)).mem_loads hm
  · exact ⟨p, k, hold⟩
  · exact absurd hv.symm ho.2

omit [DecidableEq ι] [DecidableEq V] in
/-- A reader that has obtained an object is in a section, and uses its slot. -/
theorem Slots.of_obtained {P : Type} {s : State ι P V F} (hs : Slots s) (hr : s.Obtained r o) :
    ∃ id, (s.thread r).slot = some id ∧ id < s.size ∧ 0 < (s.threadsCnt id).toInt := by
  obtain ⟨p, k, hm⟩ := hr
  have hin : s.inSection r = true := by
    by_contra hout
    rw [hs.reads r (Bool.eq_false_iff.mpr hout)] at hm
    exact absurd hm List.not_mem_nil
  cases hslot : (s.thread r).slot with
  | none => exact absurd (hin.symm.trans (inSection_of_none hslot)) Bool.noConfusion
  | some id => exact ⟨id, rfl, (hs.owned r id hslot).1, (inSection_iff hslot).mp hin⟩

end DataStructures.Rcu
