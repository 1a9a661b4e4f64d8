import DataStructures.List.SlistChain
import DataStructures.Lib.Refinement

/-!
# The singly linked list refines a list

`Spec` is a list of data.  A call has an `Effect` on it: it fails, puts a datum at an index or
takes away the one at an index; the index is that of the first element on which the callback
returns 0, or of its neighbour (`Call.effect`).

`Stands s l t`: the nodes `l` of the state `s` hold the list `t`.  An effect makes of them what
`Happens` says; `Call.run_spec` has one lemma for each function below it.
-/

namespace DataStructures.Slist

open Lib Refinement

variable {D : Type}

/-! ### The specification -/

/-- A list, the data that have been freed, and what the allocations to come will answer. -/
structure Spec (D : Type) where
  held : List D
  released : List D
  outcomes : Outcomes

/-- What a call does: it fails with a code, or it changes the list at an index. -/
inductive Effect (D : Type) where
  | fail (code : Int)
  | insert (i : Nat) (x : D)
  | delete (i : Nat)

/-- The code that is returned. -/
def Effect.code : Effect D → Int
  | fail code => code
  | insert _ _ => 0
  | delete _ => 0

def Effect.held : Effect D → List D → List D
  | fail _, l => l
  | insert i x, l => l.insertIdx i x
  | delete i, l => l.eraseIdx i

def Effect.released : Effect D → List D → List D
  | fail _, _ => []
  | insert _ _, _ => []
  | delete i, l => l[i]?.toList

/-- The functions, with what they are given. -/
inductive Call (D : Type) where
  | insertFirst (data : D)
  | insertAfter (cmp : D → D → Int) (prevData newData : D)
  | insertBefore (cmp : D → D → Int) (afterData newData : D)
  | insertLast (data : D)
  | deleteFirst
  | deleteAfter (cmp : D → D → Int) (prevData : D)
  | deleteBefore (cmp : D → D → Int) (afterData : D)
  | deleteLast

/-- The index of the first element on which the callback returns 0. -/
def find (cmp : D → D → Int) (ref : D) (l : List D) : Option Nat :=
  l.findIdx? (fun d => decide (cmp d ref = 0))

/-- An insertion, which fails with `code` where there is no memory. -/
def Effect.insertIf (memory : Bool) (code : Int) (i : Nat) (x : D) : Effect D :=
  if memory then insert i x else fail code

/-- **What a call does to a list**, where the next allocation answers `memory`. -/
def Call.effect (l : List D) (memory : Bool) : Call D → Effect D
  | insertFirst x => .insertIf memory (-1) 0 x
  | insertAfter cmp ref x => if l.isEmpty then .fail (-1) else
      match find cmp ref l with
      | none => .fail (-2)
      | some i => .insertIf memory (-3) (i + 1) x
  | insertBefore cmp ref x => if l.isEmpty then .fail (-1) else
      match find cmp ref l with
      | none => .fail (-2)
      | some i => .insertIf memory (-3) i x
  | insertLast x => .insertIf memory (-1) l.length x
  | deleteFirst => if l.isEmpty then .fail (-1) else .delete 0
  | deleteAfter cmp ref => if l.isEmpty then .fail (-1) else
      match find cmp ref l with
      | none => .fail (-2)
      | some i => if i + 1 < l.length then .delete (i + 1) else .fail (-2)
  | deleteBefore cmp ref => if l.isEmpty then .fail (-1) else
      match find cmp ref l with
      | none => .fail (-2)
      | some i => if i = 0 then .fail (-2) else .delete (i - 1)
  | deleteLast => if l.isEmpty then .fail (-1) else .delete (l.length - 1)

/-- Whether memory is asked for. -/
def Call.asks (l : List D) : Call D → Bool
  | insertFirst _ => true
  | insertAfter cmp ref _ => (find cmp ref l).isSome
  | insertBefore cmp ref _ => (find cmp ref l).isSome
  | insertLast _ => true
  | deleteFirst => false
  | deleteAfter _ _ => false
  | deleteBefore _ _ => false
  | deleteLast => false

/-- The specification of a call. -/
def spec (t : Spec D) (c : Call D) : Int × Spec D :=
  let effect := c.effect t.held t.outcomes.first
  (effect.code,
    { held := effect.held t.held
      released := t.released ++ effect.released t.held
      outcomes := (t.outcomes.when (c.asks t.held)).2 })

/-- **Where a call has to fail**: the list is empty where it may not be, the reference or the
neighbour is not there, or there is no memory. -/
def Call.Fails (t : Spec D) : Call D → Prop
  | insertFirst _ => t.outcomes.first = false
  | insertAfter cmp ref _ => t.held = [] ∨ (∀ d ∈ t.held, cmp d ref ≠ 0) ∨ t.outcomes.first = false
  | insertBefore cmp ref _ => t.held = [] ∨ (∀ d ∈ t.held, cmp d ref ≠ 0) ∨ t.outcomes.first = false
  | insertLast _ => t.outcomes.first = false
  | deleteFirst => t.held = []
  | deleteAfter cmp ref => t.held = [] ∨ (∀ d ∈ t.held, cmp d ref ≠ 0) ∨
      find cmp ref t.held = some (t.held.length - 1)
  | deleteBefore cmp ref => t.held = [] ∨ (∀ d ∈ t.held, cmp d ref ≠ 0) ∨
      find cmp ref t.held = some 0
  | deleteLast => t.held = []

/-! ### The list and its nodes -/

/-- The memory and `head`. -/
structure State (D : Type) where
  heap : Heap D
  head : Ptr

/-- An empty list. -/
def start (o : Outcomes) : State D := ⟨⟨Memory.empty o, []⟩, none⟩

/-- A call of the code: what it returns, and the state after it. -/
def Call.run (s : State D) : Call D → Option (Int × State D)
  | insertFirst x => (slistInsertFirst s.heap s.head x).map (fun r => (r.1, ⟨r.2.2, r.2.1⟩))
  | insertAfter cmp ref x =>
      (slistInsertAfter cmp s.heap s.head ref x).map (fun r => (r.1, ⟨r.2, s.head⟩))
  | insertBefore cmp ref x =>
      (slistInsertBefore cmp s.heap s.head ref x).map (fun r => (r.1, ⟨r.2.2, r.2.1⟩))
  | insertLast x => (slistInsertLast s.heap s.head x).map (fun r => (r.1, ⟨r.2.2, r.2.1⟩))
  | deleteFirst => (slistDeleteFirst s.heap s.head).map (fun r => (r.1, ⟨r.2.2, r.2.1⟩))
  | deleteAfter cmp ref =>
      (slistDeleteAfter cmp s.heap s.head ref).map (fun r => (r.1, ⟨r.2, s.head⟩))
  | deleteBefore cmp ref =>
      (slistDeleteBefore cmp s.heap s.head ref).map (fun r => (r.1, ⟨r.2.2, r.2.1⟩))
  | deleteLast => (slistDeleteLast s.heap s.head).map (fun r => (r.1, ⟨r.2.2, r.2.1⟩))

/-- The nodes `l` of the state hold the list. -/
structure Stands (s : State D) (l : List (Nat × D)) (t : Spec D) : Prop where
  holds : Holds s.heap s.head l
  data : data l = t.held
  released : s.heap.released = t.released
  outcomes : s.heap.mem.outcomes = t.outcomes

/-- The chain from `head` ends in NULL and holds the list. -/
def Represents (s : State D) (t : Spec D) : Prop := ∃ l, Stands s l t

/-- The chain is as it was. -/
def Unchanged (s s' : State D) : Prop :=
  s'.head = s.head ∧ s'.heap.mem.cells = s.heap.mem.cells ∧ s'.heap.released = s.heap.released

/-- There is one node more, the one at `i`. -/
def Adds (s s' : State D) (i : Nat) (x : D) : Prop :=
  ∃ pre a post, pre.length = i ∧ Holds s.heap s.head (pre ++ post) ∧
    Holds s'.heap s'.head (pre ++ (a, x) :: post) ∧ s'.heap.released = s.heap.released

/-- The node at `i` has been freed, with its datum, and nothing else. -/
def Frees (s s' : State D) (i : Nat) : Prop :=
  ∃ pre a x post, pre.length = i ∧ Holds s.heap s.head (pre ++ (a, x) :: post) ∧
    Holds s'.heap s'.head (pre ++ post) ∧ s'.heap.released = s.heap.released ++ [x]

/-- What becomes of the nodes. -/
def Effect.Happens (s s' : State D) : Effect D → Prop
  | fail _ => Unchanged s s'
  | insert i x => Adds s s' i x
  | delete i => Frees s s' i

/-- What `r` must be where a call that asks for memory or not has an effect. -/
def Result (s : State D) (t : Spec D) (asks : Bool) (effect : Effect D)
    (r : Option (Int × State D)) : Prop :=
  ∃ s', r = some (effect.code, s') ∧ effect.Happens s s' ∧
    Represents s' ⟨effect.held t.held, t.released ++ effect.released t.held, (t.outcomes.when asks).2⟩

variable {s : State D} {t : Spec D} {l pre post : List (Nat × D)} {a b : Nat} {d e x : D}
  {r : Option (Int × State D)} {code : Int} {h' : Heap D} {head' : Ptr}

/-! ### The three effects -/

theorem insertIdx_middle (l r : List D) (x : D) : (l ++ r).insertIdx l.length x = l ++ x :: r := by
  induction l with
  | nil => exact List.insertIdx_zero
  | cons y l ih => rw [List.cons_append, List.length_cons, List.insertIdx_succ_cons, ih, List.cons_append]

theorem eraseIdx_middle (l r : List D) (x : D) : (l ++ x :: r).eraseIdx l.length = l ++ r := by
  rw [List.eraseIdx_append_of_length_le (Nat.le_refl _), Nat.sub_self, List.eraseIdx_cons_zero]

theorem result_fail (hs : Stands s l t) (hr : r = some (code, s)) :
    Result s t false (.fail code) r :=
  ⟨s, hr, ⟨rfl, rfl, rfl⟩, l, hs.holds, hs.data, hs.released.trans (List.append_nil _).symm, hs.outcomes⟩

/-- Without memory nothing is changed. -/
theorem result_noMemory (hs : Stands s l t)
    (hr : r = some (code, ⟨{ s.heap with mem := s.heap.mem.ask.2 }, s.head⟩)) :
    Result s t true (.fail code) r := by
  refine ⟨_, hr, ⟨rfl, rfl, rfl⟩, l, ⟨hs.holds.seg, hs.holds.nodup, hs.holds.live⟩, hs.data,
    hs.released.trans (List.append_nil _).symm, ?_⟩
  exact congrArg Outcomes.rest hs.outcomes

theorem result_insert (pre : List (Nat × D)) (hs : Stands s (pre ++ post) t) (hr : r = some (0, ⟨h', head'⟩))
    (hh : Holds h' head' (pre ++ (a, x) :: post)) (hrel : h'.released = s.heap.released)
    (ho : h'.mem.outcomes = s.heap.mem.outcomes.rest) :
    Result s t true (.insert pre.length x) r := by
  refine ⟨_, hr, ⟨pre, a, post, rfl, hs.holds, hh, hrel⟩, _, hh, ?_,
    hrel.trans (hs.released.trans (List.append_nil _).symm), ho.trans (congrArg Outcomes.rest hs.outcomes)⟩
  have hlen : pre.length = (data pre).length := (List.length_map _).symm
  rw [← hs.data, data, data, List.map_append, List.map_append, List.map_cons, hlen]
  exact (insertIdx_middle _ _ x).symm

theorem result_delete (pre : List (Nat × D)) (hs : Stands s (pre ++ (a, x) :: post) t) (hr : r = some (0, ⟨h', head'⟩))
    (hh : Holds h' head' (pre ++ post)) (hrel : h'.released = s.heap.released ++ [x])
    (ho : h'.mem.outcomes = s.heap.mem.outcomes) :
    Result s t false (.delete pre.length) r := by
  have hlen : pre.length = (data pre).length := (List.length_map _).symm
  have hheld : t.held = data pre ++ x :: data post := by
    rw [← hs.data, data, List.map_append, List.map_cons]
  refine ⟨_, hr, ⟨pre, a, x, post, rfl, hs.holds, hh, hrel⟩, _, hh, ?_, ?_, ho.trans hs.outcomes⟩
  · rw [hheld, hlen, data, List.map_append]
    exact (eraseIdx_middle _ _ x).symm
  · have hx : t.held[pre.length]? = some x := by
      rw [hheld, hlen, List.getElem?_append_right (Nat.le_refl _), Nat.sub_self]
      rfl
    rw [hrel, hs.released, Effect.released, hx]
    rfl

/-! ### What the callback finds -/

section Found

variable {cmp : D → D → Int} {ref : D} {i : Nat}

theorem find_none (hf : find cmp ref (data l) = none) : ∀ n ∈ l, cmp n.2 ref ≠ 0 := by
  intro n hn
  have h := List.findIdx?_eq_none_iff.mp hf n.2 (List.mem_map_of_mem hn)
  exact of_decide_eq_false h

/-- The list around the first match. -/
theorem find_some (hf : find cmp ref (data l) = some i) : ∃ pre a d post,
    l = pre ++ (a, d) :: post ∧ pre.length = i ∧ cmp d ref = 0 ∧ ∀ n ∈ pre, cmp n.2 ref ≠ 0 := by
  induction l generalizing i with
  | nil => cases hf
  | cons n l ih =>
    rw [find, data, List.map_cons, List.findIdx?_cons] at hf
    by_cases hn : cmp n.2 ref = 0
    · rw [if_pos (decide_eq_true hn), Option.some.injEq] at hf
      exact ⟨[], n.1, n.2, l, rfl, hf, hn, fun m hm => absurd hm List.not_mem_nil⟩
    · rw [if_neg (fun h => hn (of_decide_eq_true h)), Option.map_eq_some_iff] at hf
      obtain ⟨j, hj, rfl⟩ := hf
      obtain ⟨pre, a, d, post, rfl, rfl, hd, hpre⟩ := ih hj
      refine ⟨n :: pre, a, d, post, rfl, rfl, hd, fun m hm => ?_⟩
      rcases List.mem_cons.mp hm with rfl | hm
      · exact hn
      · exact hpre m hm

end Found

/-! ### The functions -/

theorem Stands.first {b : Bool} (hs : Stands s l t) (ho : t.outcomes.first = b) :
    s.heap.mem.outcomes.first = b := by
  rw [hs.outcomes, ho]

theorem Stands.isNone (hs : Stands s l t) : s.head.isNone = l.isEmpty := by
  have hseg := hs.holds.seg
  cases l with
  | nil =>
    rw [show s.head = none from hseg]
    rfl
  | cons n l =>
    rw [hseg.1]
    rfl

theorem isEmpty_middle (l r : List (Nat × D)) (n : Nat × D) : (l ++ n :: r).isEmpty = false := by
  cases l with
  | nil => rfl
  | cons m l => rfl

theorem Stands.isEmpty (hs : Stands s l t) : t.held.isEmpty = l.isEmpty := by
  rw [← hs.data]
  exact List.isEmpty_map

/-- The ways in which the loop to the reference ends. -/
inductive Sought (cmp : D → D → Int) (ref : D) (s : State D) (t : Spec D) : List (Nat × D) → Prop where
  | empty (head : s.head.isNone = true) (held : t.held.isEmpty = true)
      (find : find cmp ref t.held = none) : Sought cmp ref s t []
  | absent {l : List (Nat × D)} {p q : Ptr} (head : s.head.isNone = false)
      (held : t.held.isEmpty = false) (find : find cmp ref t.held = none)
      (seek : seek cmp s.heap ref s.heap.rounds none none s.head = some (p, q, none)) :
      Sought cmp ref s t l
  | found {pre post : List (Nat × D)} {b : Nat} {e : D} {y : Ptr} (head : s.head.isNone = false)
      (held : t.held.isEmpty = false) (find : find cmp ref t.held = some pre.length)
      (seek : seek cmp s.heap ref s.heap.rounds none none s.head =
        some ((trail pre (none, none)).1, (trail pre (none, none)).2, some b))
      (node : s.heap.mem.cells b = some ⟨e, y⟩) : Sought cmp ref s t (pre ++ (b, e) :: post)

theorem Stands.sought (hs : Stands s l t) (cmp : D → D → Int) (ref : D) : Sought cmp ref s t l := by
  have hseg := hs.holds.seg
  have hlen := hs.holds.length_lt
  cases hemp : l.isEmpty with
  | true =>
    obtain rfl := List.isEmpty_iff.mp hemp
    exact .empty hs.isNone hs.isEmpty (by rw [← hs.data]; rfl)
  | false =>
    have hhead := hs.isNone.trans hemp
    have hheld := hs.isEmpty.trans hemp
    cases hf : find cmp ref t.held with
    | none => exact .absent hhead hheld hf (seek_absent hseg (find_none (hs.data ▸ hf)) hlen (none, none))
    | some i =>
      obtain ⟨pre, b, e, post, rfl, rfl, he, hpre⟩ := find_some (hs.data ▸ hf)
      obtain ⟨-, y, hb, -⟩ := seg_middle.mp hseg
      have hlt : pre.length < s.heap.rounds := by
        rw [List.length_append] at hlen
        omega
      exact .found hhead hheld hf (seek_found hseg he hpre hlt (none, none)) hb

theorem run_insertFirst (hs : Stands s l t) (x : D) :
    Result s t true ((Call.insertFirst x).effect t.held t.outcomes.first)
      ((Call.insertFirst x).run s) := by
  rw [Call.effect, Call.run, slistInsertFirst]
  cases ho : t.outcomes.first with
  | false =>
    refine result_noMemory hs ?_
    rw [slistNodeCreate_fail (hs.first ho)]
    rfl
  | true =>
    obtain ⟨a, h₁, h₂, hcr, hset, hh, hrel, hout⟩ := hs.holds.link_front (hs.first ho) x
    refine result_insert [] hs ?_ hh hrel hout
    simp [hcr, hset]

theorem run_insertAfter (hs : Stands s l t) (cmp : D → D → Int) (ref x : D) :
    Result s t ((Call.insertAfter cmp ref x).asks t.held)
      ((Call.insertAfter cmp ref x).effect t.held t.outcomes.first)
      ((Call.insertAfter cmp ref x).run s) := by
  rw [Call.effect, Call.asks, Call.run, slistInsertAfter]
  cases hs.sought cmp ref with
  | empty hhead hemp hf =>
    rw [hhead, hemp, hf]
    exact result_fail hs rfl
  | absent hhead hemp hf hseek =>
    rw [hhead, hemp, hf, hseek]
    exact result_fail hs rfl
  | @found pre post b e y hhead hemp hf hseek hb =>
    rw [hhead, hemp, hf, hseek]
    cases ho : t.outcomes.first with
    | false =>
      refine result_noMemory hs ?_
      simp [slistNodeCreate_fail (hs.first ho)]
    | true =>
      obtain ⟨a, h₁, h₂, h₃, hcr, -, hkeep, hset, hset', hh, hrel, hout⟩ :=
        hs.holds.link_behind hb (hs.first ho) x
      have hb₁ : h₁.mem.cells b = some ⟨e, y⟩ := by
        rw [hkeep b (by rw [hb]; exact Option.some_ne_none _), hb]
      have hpre : (pre ++ [(b, e)]).length = pre.length + 1 := List.length_append
      rw [List.append_cons] at hs hh
      simp only [Effect.insertIf, if_true, ← hpre]
      refine result_insert _ hs ?_ hh hrel hout
      simp [hcr, Memory.load, hb₁, hset, hset']

theorem run_insertBefore (hs : Stands s l t) (cmp : D → D → Int) (ref x : D) :
    Result s t ((Call.insertBefore cmp ref x).asks t.held)
      ((Call.insertBefore cmp ref x).effect t.held t.outcomes.first)
      ((Call.insertBefore cmp ref x).run s) := by
  rw [Call.effect, Call.asks, Call.run, slistInsertBefore]
  cases hs.sought cmp ref with
  | empty hhead hemp hf =>
    rw [hhead, hemp, hf]
    exact result_fail hs rfl
  | absent hhead hemp hf hseek =>
    rw [hhead, hemp, hf, hseek]
    exact result_fail hs rfl
  | @found pre post b e y hhead hemp hf hseek hb =>
    rw [hhead, hemp, hf, hseek]
    cases ho : t.outcomes.first with
    | false =>
      refine result_noMemory hs ?_
      simp [slistNodeCreate_fail (hs.first ho)]
    | true =>
      -- at the front `*head` changes, and further on the node before
      rcases List.eq_nil_or_concat pre with rfl | ⟨pre, ⟨c, d⟩, rfl⟩
      · obtain ⟨a, h₁, h₂, hcr, hset, hh, hrel, hout⟩ := hs.holds.link_front (hs.first ho) x
        refine result_insert [] hs ?_ hh hrel hout
        have hhd : s.head = some b := hs.holds.seg.1
        rw [hhd] at hset
        simp [trail, hcr, hset]
      · rw [List.concat_eq_append, List.append_assoc, List.singleton_append] at hs
        obtain ⟨-, z, hc, rfl, -⟩ := seg_middle.mp hs.holds.seg
        obtain ⟨a, h₁, h₂, h₃, hcr, -, -, hset, hset', hh, hrel, hout⟩ :=
          hs.holds.link_behind hc (hs.first ho) x
        rw [List.append_cons] at hs hh
        rw [List.concat_eq_append, trail_concat]
        refine result_insert _ hs ?_ hh hrel hout
        simp [hcr, hset, hset']

theorem run_insertLast (hs : Stands s l t) (x : D) :
    Result s t true ((Call.insertLast x).effect t.held t.outcomes.first)
      ((Call.insertLast x).run s) := by
  rw [Call.effect, Call.run, slistInsertLast]
  cases ho : t.outcomes.first with
  | false =>
    refine result_noMemory hs ?_
    simp [slistNodeCreate_fail (hs.first ho)]
  | true =>
    rw [← hs.data, List.length_map]
    rcases List.eq_nil_or_concat l with rfl | ⟨pre, ⟨b, e⟩, rfl⟩
    · have hhead : s.head = none := hs.holds.seg
      obtain ⟨a, h', hcr, hnew, hc, -, hrel, hout⟩ := slistNodeCreate_ok (hs.first ho) x
      rw [← hhead] at hc
      refine result_insert [] hs ?_ (hs.holds.insert_front hnew hc) hrel hout
      simp [hcr, hhead]
    · rw [List.concat_eq_append] at hs ⊢
      obtain ⟨hpre, y, hb, hy⟩ := seg_middle.mp hs.holds.seg
      obtain rfl : y = none := hy
      obtain ⟨a, h₁, h₂, h₃, hcr, hrounds, hkeep, hset, hset', hh, hrel, hout⟩ :=
        hs.holds.link_behind hb (hs.first ho) x
      have hseg : Seg h₁.mem.cells s.head (pre ++ [(b, e)]) none :=
        hs.holds.seg.congr (fun c hc => hkeep c (hs.holds.mem_iff.mpr hc))
      have hlen : pre.length < h₁.rounds := by
        have hlt := hs.holds.length_lt
        rw [List.length_append, List.length_singleton] at hlt
        omega
      have hseek := seekLast_spec hseg hlen (none, none)
      have hhead : s.head.isNone = false := by
        rw [hs.isNone, isEmpty_middle]
      rw [List.append_cons] at hh
      refine result_insert _ (by rwa [List.append_nil]) ?_ hh hrel hout
      simp [hcr, hhead, hseek, hset, hset']

theorem run_deleteFirst (hs : Stands s l t) :
    Result s t false (Call.deleteFirst.effect t.held t.outcomes.first) (Call.deleteFirst.run s) := by
  rw [Call.effect, Call.run, slistDeleteFirst, hs.isEmpty, hs.isNone]
  cases l with
  | nil => exact result_fail hs rfl
  | cons n l =>
    obtain ⟨hhead, next, ha, -⟩ := hs.holds.seg
    obtain ⟨h', hfree, hh, hrel, hout⟩ := hs.holds.unlink_front ha
    refine result_delete [] hs ?_ hh hrel hout
    simp [hhead, Memory.load, ha, hfree]

theorem run_deleteAfter (hs : Stands s l t) (cmp : D → D → Int) (ref : D) :
    Result s t false ((Call.deleteAfter cmp ref).effect t.held t.outcomes.first)
      ((Call.deleteAfter cmp ref).run s) := by
  rw [Call.effect, Call.run, slistDeleteAfter]
  cases hs.sought cmp ref with
  | empty hhead hemp hf =>
    rw [hhead, hemp]
    exact result_fail hs rfl
  | absent hhead hemp hf hseek =>
    rw [hhead, hemp, hf, hseek]
    exact result_fail hs rfl
  | @found pre post b e y hhead hemp hf hseek hb =>
    have hlen : t.held.length = pre.length + (post.length + 1) := by
      rw [← hs.data, List.length_map, List.length_append, List.length_cons]
    obtain ⟨-, z, hb', hpost⟩ := seg_middle.mp hs.holds.seg
    rw [hhead, hemp, hf, hseek, hlen]
    cases post with
    | nil =>
      obtain rfl : z = none := hpost
      dsimp only
      rw [List.length_nil, Nat.zero_add, if_neg (Nat.lt_irrefl _)]
      refine result_fail hs ?_
      simp [Memory.load, hb']
    | cons n post =>
      obtain ⟨rfl, z', ha, -⟩ := hpost
      obtain ⟨h₁, h₂, hset, hrel, hh, hfreed, hout⟩ := hs.holds.unlink_behind ha
      have hpre : (pre ++ [(b, e)]).length = pre.length + 1 := List.length_append
      have hlt : pre.length + 1 < pre.length + ((n :: post).length + 1) := by
        rw [List.length_cons]
        omega
      rw [List.append_cons] at hs hh
      dsimp only
      rw [if_pos hlt, ← hpre]
      refine result_delete _ hs ?_ hh hfreed hout
      simp [Memory.load, hb', ha, hset, hrel]

theorem run_deleteBefore (hs : Stands s l t) (cmp : D → D → Int) (ref : D) :
    Result s t false ((Call.deleteBefore cmp ref).effect t.held t.outcomes.first)
      ((Call.deleteBefore cmp ref).run s) := by
  rw [Call.effect, Call.run, slistDeleteBefore]
  cases hs.sought cmp ref with
  | empty hhead hemp hf =>
    rw [hhead, hemp]
    exact result_fail hs rfl
  | absent hhead hemp hf hseek =>
    rw [hhead, hemp, hf, hseek]
    exact result_fail hs rfl
  | @found pre post b e y hhead hemp hf hseek hb =>
    rw [hhead, hemp, hf, hseek]
    -- the node before the match: none, the first, or one behind another
    rcases List.eq_nil_or_concat pre with rfl | ⟨pre, ⟨a, x⟩, rfl⟩
    · exact result_fail hs rfl
    · rw [List.concat_eq_append, List.append_assoc, List.singleton_append] at hs
      have hlen : (pre ++ [(a, x)]).length = pre.length + 1 := List.length_append
      rw [List.concat_eq_append, trail_concat, hlen]
      dsimp only
      rw [if_neg (Nat.succ_ne_zero _), Nat.add_sub_cancel]
      obtain ⟨-, z, ha, rfl, -⟩ := seg_middle.mp hs.holds.seg
      rcases List.eq_nil_or_concat pre with rfl | ⟨pre, ⟨c, d⟩, rfl⟩
      · obtain ⟨h', hfree, hh, hrel, hout⟩ := hs.holds.unlink_front ha
        refine result_delete [] hs ?_ hh hrel hout
        simp [trail, hfree]
      · rw [List.concat_eq_append, List.append_assoc, List.singleton_append] at hs
        rw [List.concat_eq_append, trail_concat]
        obtain ⟨h₁, h₂, hset, hrel, hh, hfreed, hout⟩ := hs.holds.unlink_behind ha
        rw [List.append_cons] at hs hh
        refine result_delete _ hs ?_ hh hfreed hout
        simp [hset, hrel]

theorem run_deleteLast (hs : Stands s l t) :
    Result s t false (Call.deleteLast.effect t.held t.outcomes.first) (Call.deleteLast.run s) := by
  rw [Call.effect, Call.run, slistDeleteLast, hs.isEmpty, hs.isNone, ← hs.data, List.length_map]
  rcases List.eq_nil_or_concat l with rfl | ⟨pre, ⟨a, x⟩, rfl⟩
  · exact result_fail hs rfl
  · rw [List.concat_eq_append] at hs ⊢
    have hlen : pre.length < s.heap.rounds := by
      have hlt := hs.holds.length_lt
      rw [List.length_append, List.length_singleton] at hlt
      omega
    have hseek := seekLast_spec hs.holds.seg hlen (none, none)
    obtain ⟨-, y, ha, hy⟩ := seg_middle.mp hs.holds.seg
    obtain rfl : y = none := hy
    have hidx : (pre ++ [(a, x)]).length - 1 = pre.length := by
      rw [List.length_append, List.length_singleton, Nat.add_sub_cancel]
    rw [isEmpty_middle, hidx, hseek]
    rcases List.eq_nil_or_concat pre with rfl | ⟨pre, ⟨b, e⟩, rfl⟩
    · obtain ⟨h', hfree, hh, hrel, hout⟩ := hs.holds.unlink_front ha
      refine result_delete [] hs ?_ hh hrel hout
      simp [trail, hfree]
    · rw [List.concat_eq_append, trail_concat]
      rw [List.concat_eq_append, List.append_assoc, List.singleton_append] at hs
      obtain ⟨h₁, h₂, hset, hrel, hh, hfreed, hout⟩ := hs.holds.unlink_behind ha
      rw [List.append_cons] at hs
      refine result_delete _ hs ?_ (by rwa [List.append_nil]) hfreed hout
      simp [hset, hrel]

/-- **One call**: one lemma for each function. -/
theorem Call.run_spec (hs : Stands s l t) (c : Call D) :
    Result s t (c.asks t.held) (c.effect t.held t.outcomes.first) (c.run s) := by
  cases c with
  | insertFirst x => exact run_insertFirst hs x
  | insertAfter cmp ref x => exact run_insertAfter hs cmp ref x
  | insertBefore cmp ref x => exact run_insertBefore hs cmp ref x
  | insertLast x => exact run_insertLast hs x
  | deleteFirst => exact run_deleteFirst hs
  | deleteAfter cmp ref => exact run_deleteAfter hs cmp ref
  | deleteBefore cmp ref => exact run_deleteBefore hs cmp ref
  | deleteLast => exact run_deleteLast hs

/-! ### When a call fails -/

theorem insertIf_code {memory : Bool} {i : Nat} (hc : code ≠ 0) :
    (Effect.insertIf memory code i x).code ≠ 0 ↔ memory = false := by
  cases memory with
  | true => exact ⟨fun h => absurd rfl h, fun h => Bool.noConfusion h⟩
  | false => exact ⟨fun _ => rfl, fun _ => hc⟩

theorem find_eq_none_iff {cmp : D → D → Int} {ref : D} {l : List D} :
    find cmp ref l = none ↔ ∀ d ∈ l, cmp d ref ≠ 0 := by
  rw [find, List.findIdx?_eq_none_iff]
  exact forall₂_congr (fun d _ => decide_eq_false_iff_not)

theorem delete_code {held : List D} {i : Nat} :
    (if held.isEmpty then Effect.fail (-1) else Effect.delete i : Effect D).code ≠ 0 ↔ held = [] := by
  have hcode : (-1 : Int) ≠ 0 := by decide
  cases held with
  | nil => exact ⟨fun _ => rfl, fun _ => hcode⟩
  | cons d l => exact ⟨fun h => absurd rfl h, fun h => by cases h⟩

/-- A call with a reference fails on an empty list, without a match, and where `effect` does. -/
theorem sought_code {cmp : D → D → Int} {ref : D} {held : List D} {effect : Nat → Effect D} {P : Prop}
    (hP : ∀ i, find cmp ref held = some i → ((effect i).code ≠ 0 ↔ P)) :
    (if held.isEmpty then Effect.fail (-1) else
      match find cmp ref held with
      | none => Effect.fail (-2)
      | some i => effect i).code ≠ 0 ↔ held = [] ∨ (∀ d ∈ held, cmp d ref ≠ 0) ∨ P := by
  have hempty : (-1 : Int) ≠ 0 := by decide
  have habsent : (-2 : Int) ≠ 0 := by decide
  rw [← find_eq_none_iff]
  cases held with
  | nil => exact ⟨fun _ => .inl rfl, fun _ => hempty⟩
  | cons d held =>
    cases hf : find cmp ref (d :: held) with
    | none => exact ⟨fun _ => .inr (.inl rfl), fun _ => habsent⟩
    | some i =>
      refine (hP i hf).trans ⟨fun hp => .inr (.inr hp), ?_⟩
      rintro (h | h | hp)
      · cases h
      · cases h
      · exact hp

/-- **The specification fails where it has to**, and nowhere else. -/
theorem spec_fails_iff (t : Spec D) (c : Call D) : (spec t c).1 ≠ 0 ↔ c.Fails t := by
  have hno : (-2 : Int) ≠ 0 := by decide
  cases c with
  | insertFirst x => exact insertIf_code (by decide)
  | insertAfter cmp ref x => exact sought_code (fun i _ => insertIf_code (by decide))
  | insertBefore cmp ref x => exact sought_code (fun i _ => insertIf_code (by decide))
  | insertLast x => exact insertIf_code (by decide)
  | deleteFirst => exact delete_code
  | deleteAfter cmp ref =>
    refine sought_code (fun i hf => ?_)
    obtain ⟨hi, -⟩ := List.findIdx?_eq_some_iff_getElem.mp hf
    rw [hf, Option.some.injEq]
    by_cases hlt : i + 1 < t.held.length
    · rw [if_pos hlt]
      exact ⟨fun h => absurd rfl h, fun h => by omega⟩
    · rw [if_neg hlt]
      exact ⟨fun _ => by omega, fun _ => hno⟩
  | deleteBefore cmp ref =>
    refine sought_code (fun i hf => ?_)
    rw [hf, Option.some.injEq]
    by_cases hi : i = 0
    · rw [if_pos hi]
      exact ⟨fun _ => hi, fun _ => hno⟩
    · rw [if_neg hi]
      exact ⟨fun h => absurd rfl h, fun h => absurd h hi⟩
  | deleteLast => exact delete_code

/-! ### Whole runs -/

/-- **The functions refine the operations on a list.** -/
theorem refines : Refines (Call.run (D := D)) spec (fun _ _ => True) Represents := by
  refine ⟨fun {s t c} hs _ => ?_⟩
  obtain ⟨l, hs⟩ := hs
  obtain ⟨s', hr, -, hs'⟩ := c.run_spec hs
  exact ⟨s', hr, hs'⟩

theorem start_represents (o : Outcomes) : Represents (start o) (⟨[], [], o⟩ : Spec D) :=
  ⟨[], ⟨rfl, List.nodup_nil, fun _ h => absurd rfl h⟩, rfl, rfl, rfl⟩

/-- The deletions. -/
def Call.Deletes : Call D → Prop
  | insertFirst _ => False
  | insertAfter _ _ _ => False
  | insertBefore _ _ _ => False
  | insertLast _ => False
  | deleteFirst => True
  | deleteAfter _ _ => True
  | deleteBefore _ _ => True
  | deleteLast => True

theorem effect_deletes {held : List D} {memory : Bool} {c : Call D} (hc : c.Deletes) :
    (∃ code : Int, code ≠ 0 ∧ c.effect held memory = .fail code) ∨
      ∃ i, c.effect held memory = .delete i := by
  have hempty : (-1 : Int) ≠ 0 := by decide
  have habsent : (-2 : Int) ≠ 0 := by decide
  cases c with
  | insertFirst x => exact hc.elim
  | insertAfter cmp ref x => exact hc.elim
  | insertBefore cmp ref x => exact hc.elim
  | insertLast x => exact hc.elim
  | deleteFirst =>
    rw [Call.effect]
    split
    · exact .inl ⟨_, hempty, rfl⟩
    · exact .inr ⟨_, rfl⟩
  | deleteAfter cmp ref =>
    rw [Call.effect]
    split
    · exact .inl ⟨_, hempty, rfl⟩
    · split
      · exact .inl ⟨_, habsent, rfl⟩
      · split
        · exact .inr ⟨_, rfl⟩
        · exact .inl ⟨_, habsent, rfl⟩
  | deleteBefore cmp ref =>
    rw [Call.effect]
    split
    · exact .inl ⟨_, hempty, rfl⟩
    · split
      · exact .inl ⟨_, habsent, rfl⟩
      · split
        · exact .inl ⟨_, habsent, rfl⟩
        · exact .inr ⟨_, rfl⟩
  | deleteLast =>
    rw [Call.effect]
    split
    · exact .inl ⟨_, hempty, rfl⟩
    · exact .inr ⟨_, rfl⟩

theorem unchanged_of_code {effect : Effect D} {s' : State D} (he : effect.Happens s s')
    (hc : effect.code ≠ 0) : Unchanged s s' := by
  cases effect with
  | fail code => exact he
  | insert i x => exact absurd rfl hc
  | delete i => exact absurd rfl hc

/-- **The list functions refine the operations on a list.**  After every sequence of calls, with
any data, any callbacks and any outcomes of the allocations, the chain from `head` ends in NULL
and holds the list that the specification says.  A further call returns what the specification
says, which is not 0 exactly where the call has to fail; then the chain is as it was.  A deletion
that returns 0 frees the one node it takes away, and nothing else. -/
theorem slist_refines (o : Outcomes) (as : List (Call D)) : ∃ s,
    calls Call.run (start o) as = some ((specCalls spec ⟨[], [], o⟩ as).1, s) ∧
    let t := (specCalls spec ⟨[], [], o⟩ as).2
    (∃ l, Holds s.heap s.head l ∧ data l = t.held) ∧
    ∀ c : Call D, ∃ s', c.run s = some ((spec t c).1, s') ∧
      (∃ l, Holds s'.heap s'.head l ∧ data l = (spec t c).2.held) ∧
      ((spec t c).1 ≠ 0 ↔ c.Fails t) ∧ ((spec t c).1 ≠ 0 → Unchanged s s') ∧
      (c.Deletes → (spec t c).1 = 0 → ∃ i, (spec t c).2.held = t.held.eraseIdx i ∧ Frees s s' i) := by
  obtain ⟨s, hr, hs⟩ := refines.calls (start_represents o) (allLegal_of_forall as (fun _ _ => trivial))
  obtain ⟨l, hs⟩ := hs
  refine ⟨s, hr, ⟨l, hs.holds, hs.data⟩, fun c => ?_⟩
  obtain ⟨s', hr', he, l', hs'⟩ := c.run_spec hs
  refine ⟨s', hr', ⟨l', hs'.holds, hs'.data⟩, spec_fails_iff _ c, unchanged_of_code he, fun hd h0 => ?_⟩
  rcases effect_deletes hd with ⟨code, hcode, hf⟩ | ⟨i, hi⟩
  · rw [spec, hf] at h0
    exact absurd h0 hcode
  · rw [hi] at he
    refine ⟨i, ?_, he⟩
    rw [spec, hi]
    rfl

end DataStructures.Slist
