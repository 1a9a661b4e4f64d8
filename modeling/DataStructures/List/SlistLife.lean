import DataStructures.List.SlistRun
import Mathlib.Data.BitVec
import Mathlib.Data.List.Perm.Basic

/-!
# The life of a singly linked list

The functions of `list/singly_linked_list.c` that read a list, `slist_get_nth` and the three that
print, and `slist_destroy`, which ends its life.  What is printed is a list of lines.

`slist_reads`: in every state that calls can lead to, they show the list that is held.
`slist_life`: when the list is destroyed, every datum that an insertion has taken has been freed
exactly once, by a deletion or now, and no node is left.  A step keeps the data that are held or
freed, but for the one an insertion adds (`Effect.Fits.perm`); the rest is an induction on the calls.
-/

namespace DataStructures.Slist

open Lib Refinement

variable {D : Type}

/-! ### Reading -/

/-- A line that is printed: a text, or what the callback prints of a datum. -/
inductive Line (D : Type) where
  | text (s : String)
  | datum (d : D)

/-- The loop of `slist_get_nth`, where `i` nodes have been passed. -/
def getNthFrom (h : Heap D) (n : BitVec 32) : Nat → Ptr → Nat → Option Ptr
  | 0, _, _ => none
  | _ + 1, none, _ => some none
  | rounds + 1, some a, i =>
      if i < n.toNat then do
        let node ← h.mem.load (some a)
        getNthFrom h n rounds node.next (i + 1)
      else some (some a)

/-- `slist_get_nth`. -/
def slistGetNth (h : Heap D) (head : Ptr) (n : BitVec 32) : Option Ptr := getNthFrom h n h.rounds head 0

/-- The loop of `slist_print`. -/
def printFrom (h : Heap D) : Nat → Ptr → Option (List (Line D))
  | 0, _ => none
  | _ + 1, none => some []
  | rounds + 1, some a => do
      let node ← h.mem.load (some a)
      let lines ← printFrom h rounds node.next
      return .datum node.data :: lines

/-- `slist_print`. -/
def slistPrint (h : Heap D) (head : Ptr) : Option (List (Line D)) :=
  if head.isNone then some [.text "Empty list!\n"] else printFrom h h.rounds head

/-- `slist_print_reverse`, with at most `depth` calls inside each other. -/
def slistPrintReverse (h : Heap D) : Nat → Ptr → Option (List (Line D))
  | 0, _ => none
  | _ + 1, none => some []
  | depth + 1, some a => do
      let node ← h.mem.load (some a)
      let lines ← slistPrintReverse h depth node.next
      return lines ++ [.datum node.data]

/-- The loop of `slist_print_middle`: where the slow pointer ends. -/
def middleFrom (h : Heap D) : Nat → Ptr → Ptr → Option Ptr
  | 0, _, _ => none
  | _ + 1, slow, none => some slow
  | rounds + 1, slow, some b => do
      let fastNode ← h.mem.load (some b)
      if fastNode.next.isNone then return slow
      let slowNode ← h.mem.load slow
      let nextNode ← h.mem.load fastNode.next
      middleFrom h rounds slowNode.next nextNode.next

/-- `slist_print_middle`. -/
def slistPrintMiddle (h : Heap D) (head : Ptr) : Option (List (Line D)) := do
  if head.isNone then return []
  let slow ← middleFrom h h.rounds head head
  let node ← h.mem.load slow
  return [.datum node.data]

/-! ### Destroying -/

/-- The loop of `slist_destroy`, which reads `next` before it frees the node. -/
def destroyFrom : Nat → Heap D → Ptr → Option (Heap D)
  | 0, _, _ => none
  | _ + 1, h, none => some h
  | rounds + 1, h, some a => do
      let node ← h.mem.load (some a)
      let h ← release h (some a)
      destroyFrom rounds h node.next

/-- `slist_destroy`: `*head` and the memory. -/
def slistDestroy (h : Heap D) (head : Ptr) : Option (Ptr × Heap D) := do
  if head.isNone then return (head, h)
  let h ← destroyFrom h.rounds h head
  return (none, h)

variable {h : Heap D} {p q : Ptr} {l r : List (Nat × D)} {a : Nat} {d : D} {rounds i : Nat}

/-! ### The loops on a chain -/

/-- What is left of the chain after `n` nodes, or from where on. -/
theorem getNthFrom_spec (hs : Seg h.mem.cells p l none) (hr : l.length < rounds) (n : BitVec 32)
    (hi : i ≤ n.toNat) :
    ∃ q, getNthFrom h n rounds p i = some q ∧ Seg h.mem.cells q (l.drop (n.toNat - i)) none := by
  induction l generalizing p rounds i with
  | nil =>
    obtain ⟨rounds, rfl⟩ := Nat.exists_eq_succ_of_ne_zero (Nat.ne_of_gt hr)
    obtain rfl : p = none := hs
    exact ⟨none, rfl, by rw [List.drop_nil]; rfl⟩
  | cons m l ih =>
    obtain ⟨rounds, rfl⟩ := Nat.exists_eq_succ_of_ne_zero (Nat.ne_of_gt (Nat.zero_lt_of_lt hr))
    have hs' := hs
    obtain ⟨rfl, next, hm, hl⟩ := hs
    rw [getNthFrom]
    by_cases hlt : i < n.toNat
    · obtain ⟨q, hq, hseg⟩ := ih hl (Nat.lt_of_succ_lt_succ hr) hlt
      have hdrop : n.toNat - i = n.toNat - (i + 1) + 1 := by omega
      refine ⟨q, ?_, ?_⟩
      · rw [if_pos hlt, Memory.load, hm]
        exact hq
      · rw [hdrop, List.drop_succ_cons]
        exact hseg
    · refine ⟨some m.1, by rw [if_neg hlt], ?_⟩
      rw [Nat.sub_eq_zero_of_le (Nat.le_of_not_lt hlt)]
      exact hs'

theorem printFrom_spec (hs : Seg h.mem.cells p l none) (hr : l.length < rounds) :
    printFrom h rounds p = some ((data l).map .datum) := by
  induction l generalizing p rounds with
  | nil =>
    obtain ⟨rounds, rfl⟩ := Nat.exists_eq_succ_of_ne_zero (Nat.ne_of_gt hr)
    obtain rfl : p = none := hs
    rfl
  | cons m l ih =>
    obtain ⟨rounds, rfl⟩ := Nat.exists_eq_succ_of_ne_zero (Nat.ne_of_gt (Nat.zero_lt_of_lt hr))
    obtain ⟨rfl, next, hm, hl⟩ := hs
    rw [printFrom, Memory.load, hm, Option.bind_eq_bind, Option.bind_some,
      ih hl (Nat.lt_of_succ_lt_succ hr)]
    rfl

theorem slistPrintReverse_spec (hs : Seg h.mem.cells p l none) (hr : l.length < rounds) :
    slistPrintReverse h rounds p = some ((data l).reverse.map .datum) := by
  induction l generalizing p rounds with
  | nil =>
    obtain ⟨rounds, rfl⟩ := Nat.exists_eq_succ_of_ne_zero (Nat.ne_of_gt hr)
    obtain rfl : p = none := hs
    rfl
  | cons m l ih =>
    obtain ⟨rounds, rfl⟩ := Nat.exists_eq_succ_of_ne_zero (Nat.ne_of_gt (Nat.zero_lt_of_lt hr))
    obtain ⟨rfl, next, hm, hl⟩ := hs
    have hdata : (data (m :: l)).reverse = (data l).reverse ++ [m.2] := List.reverse_cons
    rw [slistPrintReverse, Memory.load, hm, Option.bind_eq_bind, Option.bind_some,
      ih hl (Nat.lt_of_succ_lt_succ hr), hdata, List.map_append]
    rfl

/-- **The slow pointer goes half as far** as the fast one: by induction on the rounds, of which each
takes two nodes off what lies ahead of the fast pointer. -/
theorem middleFrom_spec (hslow : Seg h.mem.cells p l none) (hfast : Seg h.mem.cells q r none)
    (hr : r.length < rounds) (hle : r.length ≤ l.length) :
    ∃ z, middleFrom h rounds p q = some z ∧ Seg h.mem.cells z (l.drop (r.length / 2)) none := by
  induction rounds generalizing p q l r with
  | zero => exact absurd hr (Nat.not_lt_zero _)
  | succ rounds ih =>
    cases r with
    | nil =>
      obtain rfl : q = none := hfast
      exact ⟨p, rfl, by simpa using hslow⟩
    | cons m r =>
      obtain ⟨rfl, next, hm, hrest⟩ := hfast
      rw [middleFrom, Memory.load, hm, Option.bind_eq_bind, Option.bind_some]
      cases r with
      | nil =>
        obtain rfl : next = none := hrest
        exact ⟨p, rfl, by simpa using hslow⟩
      | cons m' r =>
        obtain ⟨rfl, next', hm', hrest⟩ := hrest
        cases l with
        | nil => exact absurd hle (by simp)
        | cons k l =>
          obtain ⟨rfl, after, hk, hl⟩ := hslow
          simp only [List.length_cons] at hr hle
          obtain ⟨z, hz, hseg⟩ := ih hl hrest (by omega) (by omega)
          have hhalf : (m :: m' :: r).length / 2 = r.length / 2 + 1 := by
            rw [List.length_cons, List.length_cons]
            omega
          refine ⟨z, ?_, ?_⟩
          · simp only [Option.isNone_some, Memory.load, hk, hm', Option.bind_some]
            exact hz
          · rw [hhalf, List.drop_succ_cons]
            exact hseg

/-- **The whole chain is freed**, each node with its datum. -/
theorem destroyFrom_spec (hs : Seg h.mem.cells p l none) (hr : l.length < rounds) : ∃ h',
    destroyFrom rounds h p = some h' ∧ h'.released = h.released ++ data l ∧
    (∀ a ∈ addrs l, h'.mem.cells a = none) ∧ ∀ a, a ∉ addrs l → h'.mem.cells a = h.mem.cells a := by
  induction l generalizing h p rounds with
  | nil =>
    obtain ⟨rounds, rfl⟩ := Nat.exists_eq_succ_of_ne_zero (Nat.ne_of_gt hr)
    obtain rfl : p = none := hs
    exact ⟨h, rfl, (List.append_nil _).symm, fun a ha => absurd ha List.not_mem_nil, fun _ _ => rfl⟩
  | cons m l ih =>
    obtain ⟨rounds, rfl⟩ := Nat.exists_eq_succ_of_ne_zero (Nat.ne_of_gt (Nat.zero_lt_of_lt hr))
    obtain ⟨hm_notMem, -⟩ := List.nodup_cons.mp hs.nodup
    obtain ⟨rfl, next, hm, hl⟩ := hs
    obtain ⟨h₁, hrel, hcells, hreleased, -⟩ := release_spec hm
    have hl' : Seg h₁.mem.cells next l none := by
      refine hl.congr fun a ha => ?_
      rw [hcells]
      exact Function.update_of_ne (ne_of_mem_of_not_mem ha hm_notMem) _ _
    obtain ⟨h', hrun, hfreed, hgone, hkept⟩ := ih hl' (Nat.lt_of_succ_lt_succ hr)
    refine ⟨h', ?_, ?_, ?_, ?_⟩
    · rw [destroyFrom, Memory.load, hm, Option.bind_eq_bind, Option.bind_some, hrel]
      exact hrun
    · rw [hfreed, hreleased, List.append_assoc]
      rfl
    · intro a ha
      rcases List.mem_cons.mp ha with rfl | ha
      · rw [hkept _ hm_notMem, hcells]
        exact Function.update_self ..
      · exact hgone a ha
    · intro a ha
      obtain ⟨hne, ha⟩ := not_or.mp (fun h => ha (List.mem_cons.mpr h))
      rw [hkept a ha, hcells]
      exact Function.update_of_ne hne _ _

/-! ### What is read -/

/-- A pointer into a chain leads to the first datum of what is left of it. -/
theorem Seg.load (hs : Seg h.mem.cells p l none) :
    (h.mem.load p).map SlistT.data = (data l)[0]? ∧ (p = none ↔ l = []) := by
  cases l with
  | nil =>
    obtain rfl : p = none := hs
    exact ⟨rfl, Iff.intro (fun _ => rfl) (fun _ => rfl)⟩
  | cons m l =>
    obtain ⟨rfl, next, hm, -⟩ := hs
    refine ⟨?_, fun h => absurd h (Option.some_ne_none _), fun h => absurd h (List.cons_ne_nil _ _)⟩
    rw [Memory.load, hm]
    rfl

theorem data_drop (l : List (Nat × D)) (n : Nat) : (data (l.drop n))[0]? = (data l)[n]? := by
  rw [data, List.map_drop, List.getElem?_drop, Nat.add_zero]

theorem slistPrint_spec {s : State D} {t : Spec D} (hs : Stands s l t) :
    slistPrint s.heap s.head =
      some (if t.held.isEmpty then [.text "Empty list!\n"] else t.held.map .datum) := by
  rw [slistPrint, hs.isNone, hs.isEmpty]
  split
  · rfl
  · rw [printFrom_spec hs.holds.seg hs.holds.length_lt, hs.data]

theorem slistPrintMiddle_spec {s : State D} {t : Spec D} (hs : Stands s l t) :
    slistPrintMiddle s.heap s.head = some (t.held[t.held.length / 2]?.toList.map .datum) := by
  have hseg := hs.holds.seg
  rw [slistPrintMiddle, hs.isNone, ← hs.data, List.length_map]
  cases hemp : l.isEmpty with
  | true =>
    obtain rfl := List.isEmpty_iff.mp hemp
    rfl
  | false =>
    obtain ⟨z, hz, hsegz⟩ := middleFrom_spec hseg hseg hs.holds.length_lt (Nat.le_refl _)
    have hload := hsegz.load.1
    have hlt : l.length / 2 < (data l).length := by
      have hpos := List.length_pos_of_ne_nil (List.isEmpty_eq_false_iff.mp hemp)
      rw [List.length_map]
      omega
    rw [data_drop, List.getElem?_eq_getElem hlt] at hload
    obtain ⟨node, hnode, hdata⟩ := Option.map_eq_some_iff.mp hload
    rw [hz, List.getElem?_eq_getElem hlt, ← hdata]
    simp only [Bool.false_eq_true, if_false, Option.bind_eq_bind, Option.bind_some, hnode]
    rfl

/-- **The functions that read a list show what it holds.**  In every state that calls lead to,
`slist_print` shows the data in order and `slist_print_reverse` in the other order,
`slist_print_middle` shows the one in the middle, and `slist_get_nth` finds each one by its index,
and NULL from the length on. -/
theorem slist_reads (o : Outcomes) (as : List (Call D)) : ∃ codes s,
    calls Call.run (start o) as = some (codes, s) ∧
    let held := (specCalls spec ⟨[], [], o⟩ as).2.held
    slistPrint s.heap s.head = some (if held.isEmpty then [.text "Empty list!\n"] else held.map .datum) ∧
    slistPrintReverse s.heap s.heap.rounds s.head = some (held.reverse.map .datum) ∧
    slistPrintMiddle s.heap s.head = some (held[held.length / 2]?.toList.map .datum) ∧
    ∀ n : BitVec 32, ∃ p, slistGetNth s.heap s.head n = some p ∧
      (s.heap.mem.load p).map SlistT.data = held[n.toNat]? ∧ (p = none ↔ held.length ≤ n.toNat) := by
  obtain ⟨s, hr, l, hs⟩ :=
    refines.calls (start_represents o) (allLegal_of_forall as (fun _ _ => trivial))
  refine ⟨_, s, hr, slistPrint_spec hs, ?_, slistPrintMiddle_spec hs, fun n => ?_⟩
  · rw [slistPrintReverse_spec hs.holds.seg hs.holds.length_lt, hs.data]
  · obtain ⟨q, hq, hseg⟩ := getNthFrom_spec hs.holds.seg hs.holds.length_lt n (Nat.zero_le _)
    obtain ⟨hload, hnone⟩ := hseg.load
    rw [data_drop, Nat.sub_zero] at hload
    refine ⟨q, hq, by rw [hload, hs.data], ?_⟩
    rw [hnone, Nat.sub_zero, List.drop_eq_nil_iff, ← hs.data, List.length_map]

/-! ### What is freed -/

/-- The datum that an insertion is given. -/
def Call.datum : Call D → Option D
  | insertFirst x => some x
  | insertAfter _ _ x => some x
  | insertBefore _ _ x => some x
  | insertLast x => some x
  | deleteFirst => none
  | deleteAfter _ _ => none
  | deleteBefore _ _ => none
  | deleteLast => none

/-- The data that insertions have taken, those which returned 0. -/
def taken : List (Call D) → List Int → List D
  | c :: cs, code :: codes => (if code = 0 then c.datum.toList else []) ++ taken cs codes
  | _, _ => []

/-- What an effect does is what its call may do: it takes the datum that was given, inserts it
within the list, or takes none. -/
inductive Effect.Fits (c : Call D) (held : List D) : Effect D → Prop where
  | fail {code : Int} (hc : code ≠ 0) : Fits c held (.fail code)
  | insert {i : Nat} {x : D} (hi : i ≤ held.length) (hx : c.datum = some x) : Fits c held (.insert i x)
  | delete {i : Nat} (hx : c.datum = none) : Fits c held (.delete i)

theorem Effect.Fits.insertIf {c : Call D} {held : List D} {memory : Bool} {code : Int} {x : D}
    (hc : code ≠ 0) (hi : i ≤ held.length) (hx : c.datum = some x) :
    Effect.Fits c held (.insertIf memory code i x) := by
  cases memory with
  | true => exact .insert hi hx
  | false => exact .fail hc

/-- A call with a reference, from what it does where there is one. -/
theorem Effect.Fits.sought {c : Call D} {held : List D} {cmp : D → D → Int} {ref : D}
    {effect : Nat → Effect D} (hf : ∀ i < held.length, Effect.Fits c held (effect i)) :
    Effect.Fits c held (if held.isEmpty then .fail (-1) else
      match find cmp ref held with
      | none => .fail (-2)
      | some i => effect i) := by
  have hempty : (-1 : Int) ≠ 0 := by decide
  have habsent : (-2 : Int) ≠ 0 := by decide
  split
  · exact .fail hempty
  · cases hi : find cmp ref held with
    | none => exact .fail habsent
    | some i => exact hf i (List.findIdx?_eq_some_iff_getElem.mp hi).1

theorem Call.effect_fits (c : Call D) (held : List D) (memory : Bool) :
    Effect.Fits c held (c.effect held memory) := by
  have hempty : (-1 : Int) ≠ 0 := by decide
  have habsent : (-2 : Int) ≠ 0 := by decide
  cases c with
  | insertFirst x => exact .insertIf hempty (Nat.zero_le _) rfl
  | insertAfter cmp ref x => exact .sought fun i hi => .insertIf (by decide) hi rfl
  | insertBefore cmp ref x => exact .sought fun i hi => .insertIf (by decide) (Nat.le_of_lt hi) rfl
  | insertLast x => exact .insertIf hempty (Nat.le_refl _) rfl
  | deleteFirst =>
    rw [Call.effect]
    split
    · exact .fail hempty
    · exact .delete rfl
  | deleteAfter cmp ref =>
    refine .sought fun i _ => ?_
    split
    · exact .delete rfl
    · exact .fail habsent
  | deleteBefore cmp ref =>
    refine .sought fun i _ => ?_
    split
    · exact .fail habsent
    · exact .delete rfl
  | deleteLast =>
    rw [Call.effect]
    split
    · exact .fail hempty
    · exact .delete rfl

/-- **The data that are held or freed** are those from before and the one that an insertion takes. -/
theorem Effect.Fits.perm {c : Call D} {held : List D} {effect : Effect D}
    (hf : Effect.Fits c held effect) :
    (effect.held held ++ effect.released held).Perm
      (held ++ if effect.code = 0 then c.datum.toList else []) := by
  cases hf with
  | @fail code hc => rw [Effect.code, if_neg hc, Effect.held, Effect.released]
  | @insert i x hi hx =>
    rw [Effect.code, if_pos rfl, Effect.held, Effect.released, hx, List.append_nil]
    exact (List.perm_insertIdx x held hi).trans (List.perm_append_singleton x held).symm
  | @delete i hx =>
    rw [Effect.code, if_pos rfl, Effect.held, Effect.released, hx]
    by_cases hi : i < held.length
    · rw [List.getElem?_eq_getElem hi]
      exact (List.perm_append_singleton _ _).trans
        ((List.getElem_cons_eraseIdx_perm hi).trans (by rw [Option.toList_none, List.append_nil]))
    · rw [List.getElem?_eq_none (Nat.le_of_not_lt hi), List.eraseIdx_of_length_le (Nat.le_of_not_lt hi)]

theorem perm_append_swap (l r k : List D) : (l ++ (r ++ k)).Perm (l ++ k ++ r) := by
  rw [List.append_assoc]
  exact List.perm_append_comm.append_left l

/-- **The ledger of a run.** -/
theorem specCalls_perm (t : Spec D) (as : List (Call D)) :
    ((specCalls spec t as).2.held ++ (specCalls spec t as).2.released).Perm
      (t.held ++ t.released ++ taken as (specCalls spec t as).1) := by
  induction as generalizing t with
  | nil => exact .of_eq (List.append_nil _).symm
  | cons c as ih =>
    have hstep := (c.effect_fits t.held t.outcomes.first).perm
    have hrest := ih (spec t c).2
    generalize hcodes : taken as (specCalls spec (spec t c).2 as).1 = later at hrest
    generalize hadded : (if (spec t c).1 = 0 then c.datum.toList else []) = added
    have htaken : taken (c :: as) (specCalls spec t (c :: as)).1 = added ++ later := by
      rw [← hcodes, ← hadded]
      rfl
    have hone : ((spec t c).2.held ++ (spec t c).2.released).Perm (t.held ++ t.released ++ added) := by
      rw [← hadded]
      refine (perm_append_swap _ t.released _).trans ((hstep.append_right _).trans ?_)
      rw [List.append_assoc]
      exact perm_append_swap _ _ _
    rw [htaken, ← List.append_assoc]
    exact hrest.trans (hone.append_right later)

theorem slistDestroy_spec {s : State D} {t : Spec D} (hs : Stands s l t) : ∃ h',
    slistDestroy s.heap s.head = some (none, h') ∧ h'.released = t.released ++ t.held ∧
    ∀ a, h'.mem.cells a = none := by
  have hseg := hs.holds.seg
  obtain ⟨h', hr, hreleased, hgone, hkept⟩ := destroyFrom_spec hseg hs.holds.length_lt
  have hnone : ∀ a, h'.mem.cells a = none := by
    intro a
    by_cases ha : a ∈ addrs l
    · exact hgone a ha
    · rw [hkept a ha]
      by_contra hlive
      exact ha (hs.holds.live a hlive)
  refine ⟨h', ?_, by rw [hreleased, hs.released, hs.data], hnone⟩
  rw [slistDestroy]
  cases hp : s.head with
  | none =>
    rw [hp] at hr
    exact congrArg (Option.map (Prod.mk none)) hr
  | some a =>
    rw [hp] at hr
    rw [hr]
    rfl

/-- **Every datum is freed once.**  After any calls, with any data, any callbacks and any outcomes
of the allocations, `slist_destroy` frees what is left: `*head` is NULL, no node is left in the
memory, and the data freed since the list was empty are those that the insertions took, each as
often as it was inserted. -/
theorem slist_life (o : Outcomes) (as : List (Call D)) : ∃ codes s h',
    calls Call.run (start o) as = some (codes, s) ∧ slistDestroy s.heap s.head = some (none, h') ∧
    (∀ a, h'.mem.cells a = none) ∧ h'.released.Perm (taken as codes) := by
  obtain ⟨s, hr, l, hs⟩ :=
    refines.calls (start_represents o) (allLegal_of_forall as (fun _ _ => trivial))
  obtain ⟨h', hd, hreleased, hnone⟩ := slistDestroy_spec hs
  refine ⟨_, s, h', hr, hd, hnone, ?_⟩
  rw [hreleased]
  exact List.perm_append_comm.trans (specCalls_perm ⟨[], [], o⟩ as)

end DataStructures.Slist
