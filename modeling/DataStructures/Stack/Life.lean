import DataStructures.Stack.Lifo

/-!
# The life of a stack

`stack_destroy` frees the entries one after the other; it reads `next` of a node before that is
freed, and `readNext` is `none` where it would be too late.  `Tight s entries`: no entry is allocated
but those in the stack.

`Life s pushed popped`: the stack `s` is what `stack_create`, pushes and pops leave, whatever the
allocations have answered.  `stack_life`: **what was pushed has been popped or is still there**, and
`stack_destroy` leaves no entry behind.
-/

namespace DataStructures.Stack

open Lib Kdlist Refinement

variable {s s' : StackT} {entries l r : List (Nat × Ptr)} {e : Nat × Ptr}

/-- `it->next`, of a node that is not part of a freed entry. -/
def readNext (s : StackT) : Node → Option Node
  | .head => some (s.links .head).next
  | .entry a => (s.mem.load (some a)).map (fun _ => (s.links (.entry a)).next)

/-- `kdlist_for_each_safe` of `stack_destroy`, from `it` on, with `aux` already read. -/
def destroyEach : Nat → StackT → Node → Node → Option StackT
  | 0, _, _, _ => none
  | fuel + 1, s, it, aux =>
      if it = .head then some s
      else do
        let entry ← containerOf it
        let mem ← s.mem.free (some entry)
        let s := { s with mem := mem }
        let next ← readNext s aux
        destroyEach fuel s aux next

/-- `stack_destroy`: the memory of the entries that it leaves. -/
def stackDestroy (fuel : Nat) (s : StackT) : Option (Memory Ptr) := do
  let it := (s.links .head).next
  let aux ← readNext s it
  let s ← destroyEach fuel s it aux
  return s.mem

/-! ### Nothing else is allocated -/

/-- Every entry that is allocated is in the stack. -/
def Tight (s : StackT) (entries : List (Nat × Ptr)) : Prop :=
  ∀ a, s.mem.cells a ≠ none → ∃ e ∈ entries, e.1 = a

theorem Keeps.nodup (h : Keeps s entries) : (entries.map Prod.fst).Nodup := by
  have hn := (List.nodup_cons.mp h.ring.nodup).2
  refine List.Nodup.of_map Node.entry ?_
  rwa [List.map_map]

/-- **A push**, with either outcome. -/
theorem push_tight (h : Keeps s entries) (ht : Tight s entries) (data : Ptr) :
    (∃ s' a, stackPush s data = (0, s') ∧ Keeps s' ((a, data) :: entries) ∧
      Tight s' ((a, data) :: entries)) ∨
    ∃ s', stackPush s data = (-2, s') ∧ Keeps s' entries ∧ Tight s' entries := by
  cases hfirst : s.mem.outcomes.first with
  | false =>
    refine Or.inr ⟨{ s with mem := s.mem.ask.2 }, ?_, ⟨h.ring, h.data⟩, ht⟩
    rw [stackPush, Memory.malloc_fail hfirst]
  | true =>
    obtain ⟨s', a, hpush, h', _⟩ := h.push hfirst data
    obtain ⟨mem, hmem, hnew, hold, _, _⟩ := Memory.malloc_ok hfirst data
    have hs' : s'.mem = mem := by
      rw [stackPush, hmem, Prod.mk.injEq] at hpush
      rw [← hpush.2]
    refine Or.inl ⟨s', a, hpush, h', fun b hb => ?_⟩
    rw [hs'] at hb
    by_cases hbn : b = s.mem.next
    · -- the new entry is the one at the address that was free
      refine ⟨(a, data), List.mem_cons_self, ?_⟩
      by_contra hne
      have ha : s.mem.cells a = some data := by
        rw [← hold a (fun he => hne (he.trans hbn.symm)), ← hs']
        exact h'.data _ List.mem_cons_self
      obtain ⟨e, he, hea⟩ := ht a (by rw [ha]; exact Option.some_ne_none data)
      refine (List.nodup_cons.mp h'.nodup).1 ?_
      exact List.mem_map.mpr ⟨e, he, hea⟩
    · rw [hold b hbn] at hb
      obtain ⟨e, he, heb⟩ := ht b hb
      exact ⟨e, List.mem_cons_of_mem _ he, heb⟩

/-- **A pop** of an entry. -/
theorem pop_tight (h : Keeps s (e :: entries)) (ht : Tight s (e :: entries)) :
    ∃ s', stackPop s = some (e.2, s') ∧ Keeps s' entries ∧ Tight s' entries := by
  have he := h.data e List.mem_cons_self
  obtain ⟨s', hpop, h', _⟩ := h.pop
  obtain ⟨mem, hmem, hgone, honly⟩ := Memory.free_spec he
  have hs' : s'.mem = mem := by
    rw [stackPop, kdlistPopHead_cons h.ring] at hpop
    simp only [containerOf, Memory.load, he, hmem, Option.bind_eq_bind, Option.bind_some] at hpop
    exact (congrArg StackT.mem (Prod.mk.inj (Option.some.inj hpop)).2).symm
  refine ⟨s', hpop, h', fun b hb => ?_⟩
  rw [hs'] at hb
  have hbe : b ≠ e.1 := by
    rintro rfl
    exact hb hgone
  rw [honly.cells b (by rwa [List.mem_singleton])] at hb
  obtain ⟨d, hd, hdb⟩ := ht b hb
  rcases List.mem_cons.mp hd with rfl | hd
  · exact absurd hdb.symm hbe
  · exact ⟨d, hd, hdb⟩

/-! ### Destroying -/

/-- The node of the first entry, or the head. -/
def first : List (Nat × Ptr) → Node
  | [] => .head
  | e :: _ => .entry e.1

theorem next_head (h : Keeps s entries) : (s.links .head).next = first entries := by
  cases entries with
  | nil => exact (Ring.nil_iff.mp h.ring).1
  | cons e entries =>
    exact (h.ring.link_of_split (P := []) (Q := nodes entries ++ [.head]) rfl).1

theorem next_entry (h : Keeps s (l ++ e :: r)) : (s.links (.entry e.1)).next = first r := by
  have hsplit : ∀ Q b, nodes r ++ [Node.head] = b :: Q → (s.links (.entry e.1)).next = b := by
    intro Q b hb
    refine (h.ring.link_of_split (P := .head :: nodes l) (Q := Q) ?_).1
    rw [nodes, List.map_append, List.map_cons, List.cons_append, List.append_assoc, List.cons_append]
    exact congrArg (fun Q => .head :: (nodes l ++ .entry e.1 :: Q)) hb
  cases r with
  | nil => exact hsplit [] _ rfl
  | cons d r => exact hsplit (nodes r ++ [.head]) _ rfl

/-- Reading `next` of the first of the entries that are still there. -/
theorem readNext_first (h : Keeps s (l ++ r)) {mem : Memory Ptr}
    (hlive : ∀ e ∈ r, mem.cells e.1 = some e.2) :
    ∃ aux, readNext { s with mem := mem } (first r) = some aux ∧
      ∀ e r', r = e :: r' → aux = first r' := by
  cases r with
  | nil => exact ⟨_, rfl, fun e r' he => absurd he (List.cons_ne_nil _ _).symm⟩
  | cons e r =>
    refine ⟨first r, ?_, fun e' r' he => (congrArg first (List.cons.inj he).2)⟩
    have hload : mem.load (some e.1) = some e.2 := hlive e List.mem_cons_self
    rw [first, readNext, hload, Option.map_some, next_entry h]

/-- **The loop of `stack_destroy`** frees the entries that are left, and no others. -/
theorem destroyEach_spec : ∀ (r l : List (Nat × Ptr)) (mem : Memory Ptr) (fuel : Nat) (aux : Node),
    Keeps s (l ++ r) → (r.map Prod.fst).Nodup → (∀ e ∈ r, mem.cells e.1 = some e.2) →
    r.length < fuel → (∀ e r', r = e :: r' → aux = first r') →
    ∃ mem', destroyEach fuel { s with mem := mem } (first r) aux = some { s with mem := mem' } ∧
      (∀ e ∈ r, mem'.cells e.1 = none) ∧ ∀ a, a ∉ r.map Prod.fst → mem'.cells a = mem.cells a := by
  intro r
  induction r with
  | nil =>
    intro l mem fuel aux _ _ _ hfuel _
    obtain ⟨n, rfl⟩ := Nat.exists_eq_succ_of_ne_zero (Nat.ne_of_gt hfuel)
    exact ⟨mem, if_pos rfl, fun e he => absurd he List.not_mem_nil, fun _ _ => rfl⟩
  | cons e r ih =>
    intro l mem fuel aux h hn hlive hfuel haux
    rw [List.length_cons] at hfuel
    obtain ⟨n, rfl⟩ := Nat.exists_eq_succ_of_ne_zero (Nat.ne_of_gt (Nat.zero_lt_of_lt hfuel))
    obtain rfl := haux e r rfl
    rw [List.map_cons, List.nodup_cons] at hn
    obtain ⟨mem₁, hfree, hgone, honly⟩ := Memory.free_spec (hlive e List.mem_cons_self)
    have hne : ∀ d ∈ r, d.1 ≠ e.1 := fun d hd he => hn.1 (List.mem_map.mpr ⟨d, hd, he⟩)
    have hlive₁ : ∀ d ∈ r, mem₁.cells d.1 = some d.2 := fun d hd => by
      rw [honly.cells d.1 (by rw [List.mem_singleton]; exact hne d hd)]
      exact hlive d (List.mem_cons_of_mem e hd)
    have h₁ : Keeps s (l ++ [e] ++ r) := by rwa [List.append_assoc]
    obtain ⟨aux, hread, haux'⟩ := readNext_first h₁ hlive₁
    obtain ⟨mem₂, hr₂, hgone₂, hkept₂⟩ := ih (l ++ [e]) mem₁ n aux h₁ hn.2 hlive₁ (by omega) haux'
    refine ⟨mem₂, ?_, fun d hd => ?_, fun a ha => ?_⟩
    · rw [first, destroyEach, if_neg Node.noConfusion]
      simp only [containerOf, hfree, hread, Option.bind_eq_bind, Option.bind_some]
      exact hr₂
    · rcases List.mem_cons.mp hd with rfl | hd
      · rw [hkept₂ d.1 hn.1, hgone]
      · exact hgone₂ d hd
    · rw [List.map_cons, List.mem_cons, not_or] at ha
      rw [hkept₂ a ha.2, honly.cells a (by rw [List.mem_singleton]; exact ha.1)]

/-- **`stack_destroy` frees every entry**, each once. -/
theorem stackDestroy_spec (h : Keeps s entries) (ht : Tight s entries) {fuel : Nat}
    (hfuel : entries.length < fuel) :
    ∃ mem, stackDestroy fuel s = some mem ∧ ∀ a, mem.cells a = none := by
  obtain ⟨aux, hread, haux⟩ := @readNext_first s [] entries h s.mem h.data
  obtain ⟨mem, hr, hgone, hkept⟩ := destroyEach_spec entries [] s.mem fuel aux h h.nodup h.data hfuel haux
  refine ⟨mem, ?_, fun a => ?_⟩
  · rw [stackDestroy, next_head h]
    simp only [hread, hr, Option.bind_eq_bind, Option.bind_some]
    rfl
  · by_cases ha : a ∈ entries.map Prod.fst
    · obtain ⟨e, he, rfl⟩ := List.mem_map.mp ha
      exact hgone e he
    · rw [hkept a ha]
      by_contra hne
      obtain ⟨e, he, hea⟩ := ht a hne
      exact ha (List.mem_map.mpr ⟨e, he, hea⟩)

/-! ### Every run -/

/-- What `stack_create`, pushes and pops leave, with the data that was pushed and popped. -/
inductive Life : StackT → List Ptr → List Ptr → Prop
  | create {links : Lib.Store Node} {o : Outcomes} {s : StackT} : stackCreate links o = some s →
      Life s [] []
  | push {s s' : StackT} {data : Ptr} {rv : Int} {pushed popped : List Ptr} : Life s pushed popped →
      stackPush s data = (rv, s') → Life s' (if rv = 0 then data :: pushed else pushed) popped
  | pop {s s' : StackT} {data : Ptr} {pushed popped : List Ptr} : Life s pushed popped →
      stackPop s = some (data, s') →
      Life s' pushed (if stackIsEmpty s then popped else data :: popped)

theorem Life.keeps {pushed popped : List Ptr} (h : Life s pushed popped) :
    ∃ entries, Keeps s entries ∧ Tight s entries ∧ pushed.Perm (popped ++ entries.map Prod.snd) := by
  induction h with
  | @create links o s hc =>
    cases hfirst : o.first with
    | false =>
      rw [stackCreate, hfirst] at hc
      cases hc
    | true =>
      obtain ⟨s₁, hc₁, hk, _⟩ := keeps_create links hfirst
      obtain rfl := Option.some.inj (hc₁.symm.trans hc)
      rw [stackCreate, if_pos hfirst] at hc₁
      refine ⟨[], hk, fun a ha => absurd ?_ ha, .refl _⟩
      rw [← Option.some.inj hc₁]
      rfl
  | @push s s' data rv pushed popped _ hr ih =>
    obtain ⟨entries, hk, ht, hp⟩ := ih
    rcases push_tight hk ht data with ⟨s₁, a, hr₁, hk₁, ht₁⟩ | ⟨s₁, hr₁, hk₁, ht₁⟩
    · obtain ⟨rfl, rfl⟩ := Prod.mk.inj (hr₁.symm.trans hr)
      refine ⟨_, hk₁, ht₁, ?_⟩
      rw [if_pos rfl, List.map_cons]
      exact (hp.cons data).trans List.perm_middle.symm
    · obtain ⟨rfl, rfl⟩ := Prod.mk.inj (hr₁.symm.trans hr)
      rw [if_neg (by decide)]
      exact ⟨entries, hk₁, ht₁, hp⟩
  | @pop s s' data pushed popped _ hr ih =>
    obtain ⟨entries, hk, ht, hp⟩ := ih
    cases entries with
    | nil =>
      rw [stackPop, kdlistPopHead_nil hk.ring] at hr
      obtain ⟨_, rfl⟩ := Prod.mk.inj (Option.some.inj hr)
      rw [if_pos (hk.isEmpty_iff.mpr rfl)]
      exact ⟨[], hk, ht, hp⟩
    | cons e entries =>
      obtain ⟨s₁, hr₁, hk₁, ht₁⟩ := pop_tight hk ht
      obtain ⟨rfl, rfl⟩ := Prod.mk.inj (Option.some.inj (hr₁.symm.trans hr))
      rw [if_neg (mt hk.isEmpty_iff.mp (List.cons_ne_nil e entries))]
      exact ⟨entries, hk₁, ht₁, hp.trans List.perm_middle⟩

/-- Popping everything. -/
theorem pop_all : ∀ {entries : List (Nat × Ptr)} {s : StackT}, Keeps s entries →
    ∃ s', calls Call.run s (List.replicate entries.length .pop) =
      some (entries.map (fun e => .popped e.2), s') ∧ stackIsEmpty s' = true := by
  intro entries
  induction entries with
  | nil => exact fun {s} h => ⟨s, rfl, h.isEmpty_iff.mpr rfl⟩
  | cons e entries ih =>
    intro s h
    obtain ⟨s₁, hpop, h₁, _⟩ := h.pop
    obtain ⟨s₂, hall, hempty⟩ := ih h₁
    refine ⟨s₂, ?_, hempty⟩
    rw [List.length_cons, List.replicate_succ, calls, Call.run, hpop]
    simp only [Option.map_some, Option.bind_eq_bind, Option.bind_some, hall]
    rfl

/-- **The whole life of a stack.**  Whatever the allocations answer, the data that was pushed and not
popped is what as many further pops return, `stack_destroy` ends, and it leaves no entry behind. -/
theorem stack_life (s : StackT) (pushed popped : List Ptr) (h : Life s pushed popped) :
    ∃ held, pushed.Perm (popped ++ held) ∧
      (∃ s', calls Call.run s (List.replicate held.length .pop) = some (held.map .popped, s') ∧
        stackIsEmpty s' = true) ∧
      ∀ fuel, held.length < fuel →
        ∃ mem, stackDestroy fuel s = some mem ∧ ∀ a, mem.cells a = none := by
  obtain ⟨entries, hk, ht, hp⟩ := h.keeps
  refine ⟨entries.map Prod.snd, hp, ?_, fun fuel hfuel => ?_⟩
  · obtain ⟨s', hall, hempty⟩ := pop_all hk
    refine ⟨s', ?_, hempty⟩
    rw [List.length_map, List.map_map]
    exact hall
  · rw [List.length_map] at hfuel
    exact stackDestroy_spec hk ht hfuel

/-- An empty stack. -/
def emptyStack : StackT := ⟨kdlistHeadInit (fun _ => ⟨.head, .head⟩) .head, .empty .allOk⟩

/-- The stack after pushing `7`, `8` and `9`. -/
def threeStack : StackT := (stackPush (stackPush (stackPush emptyStack (some 7)).2 (some 8)).2 (some 9)).2

theorem threeStack_isSome : (stackPop threeStack).isSome := rfl

/-- The stack after popping one of them. -/
def exampleStack : StackT := ((stackPop threeStack).get threeStack_isSome).2

theorem exampleStack_life : Life exampleStack [some 9, some 8, some 7] [some 9] := by
  have h₀ : Life emptyStack [] [] :=
    .create (show stackCreate (fun _ => ⟨.head, .head⟩) .allOk = some emptyStack from rfl)
  have h₃ : Life threeStack [some 9, some 8, some 7] [] :=
    ((h₀.push (show stackPush _ (some 7) = (0, _) from rfl)).push
      (show stackPush _ (some 8) = (0, _) from rfl)).push
      (show stackPush _ (some 9) = (0, threeStack) from rfl)
  exact h₃.pop (show stackPop threeStack = some (some 9, exampleStack) from rfl)

theorem stack_life_exampleStack : ∃ held, [some 9, some 8, some 7].Perm ([some 9] ++ held) ∧
    (∃ s', calls Call.run exampleStack (List.replicate held.length .pop) =
        some (held.map .popped, s') ∧ stackIsEmpty s' = true) ∧
      ∀ fuel, held.length < fuel →
        ∃ mem, stackDestroy fuel exampleStack = some mem ∧ ∀ a, mem.cells a = none :=
  stack_life exampleStack [some 9, some 8, some 7] [some 9] exampleStack_life

end DataStructures.Stack
