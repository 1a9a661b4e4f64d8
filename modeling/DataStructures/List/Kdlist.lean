import DataStructures.Lib.Ring
import Mathlib.Tactic.Common

/-!
# `list/kdoubly_linked_list.c`

A node holds `next` and `prev`; a head is a node.  Every function of the file is
here as it writes the store, field by field and in the same order.

On a ring each of them is one of the two surgeries of `Lib/Ring.lean`:
`kdlistDelete`, `kdlistPopHead` and `kdlistPopTail` take a node out, the three
pushes put one in.  The `Rings` lemmas say so for a family of lists, with
`Function.update` on the list that changes.
-/

namespace DataStructures.Kdlist

open Lib

variable {α ι : Type} [DecidableEq α]

/-! ### The functions -/

/-- `kdlist_head_init`. -/
def kdlistHeadInit (m : Store α) (head : α) : Store α :=
  setPrev (setNext m head head) head head

/-- `kdlist_is_empty`. -/
def kdlistIsEmpty (m : Store α) (head : α) : Bool := (m head).next == head

/-- `kdlist_get_head`. -/
def kdlistGetHead (m : Store α) (head : α) : α := (m head).next

/-- `kdlist_pop_head`: the node, or NULL, and the store afterwards. -/
def kdlistPopHead (m : Store α) (head : α) : Option α × Store α :=
  if kdlistIsEmpty m head then (none, m)
  else
    let node := (m head).next
    let m := setNext m head (m node).next
    let m := setPrev m (m node).next head
    (some node, m)

/-- `kdlist_pop_tail`. -/
def kdlistPopTail (m : Store α) (head : α) : Option α × Store α :=
  if kdlistIsEmpty m head then (none, m)
  else
    let node := (m head).prev
    let m := setPrev m head (m node).prev
    let m := setNext m (m node).prev head
    (some node, m)

/-- `kdlist_push_head`. -/
def kdlistPushHead (m : Store α) (head node : α) : Store α :=
  if kdlistIsEmpty m head then
    let m := setNext m head node
    let m := setPrev m head node
    let m := setNext m node head
    setPrev m node head
  else
    let m := setPrev m (m head).next node
    let m := setNext m node (m head).next
    let m := setNext m head node
    setPrev m node head

/-- `kdlist_push_tail`. -/
def kdlistPushTail (m : Store α) (head node : α) : Store α :=
  if kdlistIsEmpty m head then
    let m := setNext m head node
    let m := setPrev m head node
    let m := setNext m node head
    setPrev m node head
  else
    let m := setPrev m node (m head).prev
    let m := setNext m (m head).prev node
    let m := setPrev m head node
    setNext m node head

/-- `kdlist_push_after`. -/
def kdlistPushAfter (m : Store α) (base node : α) : Store α :=
  let m := setPrev m (m base).next node
  let m := setPrev m node base
  let m := setNext m node (m base).next
  setNext m base node

/-- `kdlist_delete`. -/
def kdlistDelete (m : Store α) (node : α) : Store α :=
  let m := setNext m (m node).prev (m node).next
  setPrev m (m node).next (m node).prev

/-- `kdlist_for_each`: the nodes `pos` runs through from `pos` on, `none` when
`fuel` iterations do not lead back to the head. -/
def kdlistForEachFrom (m : Store α) (head : α) : Nat → α → Option (List α)
  | 0, _ => none
  | fuel + 1, pos =>
      if pos = head then some []
      else (kdlistForEachFrom m head fuel (m pos).next).map (pos :: ·)

/-- `kdlist_for_each`, from the head's successor. -/
def kdlistForEach (m : Store α) (head : α) (fuel : Nat) : Option (List α) :=
  kdlistForEachFrom m head fuel (m head).next

/-- `kdlist_for_each_reverse`, from `pos` on. -/
def kdlistForEachReverseFrom (m : Store α) (head : α) : Nat → α → Option (List α)
  | 0, _ => none
  | fuel + 1, pos =>
      if pos = head then some []
      else (kdlistForEachReverseFrom m head fuel (m pos).prev).map (pos :: ·)

/-- `kdlist_for_each_reverse`, from the head's predecessor. -/
def kdlistForEachReverse (m : Store α) (head : α) (fuel : Nat) : Option (List α) :=
  kdlistForEachReverseFrom m head fuel (m head).prev

/-! ### One ring -/

theorem kdlistHeadInit_ring (m : Store α) (head : α) : Ring (kdlistHeadInit m head) head [] := by
  rw [Ring.nil_iff]
  simp [kdlistHeadInit]

theorem kdlistIsEmpty_iff {m : Store α} {head : α} {xs : List α} (h : Ring m head xs) :
    kdlistIsEmpty m head = true ↔ xs = [] := by
  rw [kdlistIsEmpty, beq_iff_eq, h.next_eq_head_iff]

omit [DecidableEq α] in
/-- `kdlist_get_head` is the first element of a list, and the head itself if there is none. -/
theorem kdlistGetHead_cons {m : Store α} {head x : α} {xs : List α} (h : Ring m head (x :: xs)) :
    kdlistGetHead m head = x :=
  (h.link_of_split (P := []) (Q := xs ++ [head]) (by simp)).1

omit [DecidableEq α] in
theorem kdlistGetHead_nil {m : Store α} {head : α} (h : Ring m head []) :
    kdlistGetHead m head = head :=
  (Ring.nil_iff.mp h).1

/-- On a ring the second write of `kdlist_delete` still reads what the first one
left alone. -/
theorem kdlistDelete_eq (m : Store α) (n : α) :
    kdlistDelete m n = join m (m n).prev (m n).next := by
  have h : (setNext m (m n).prev (m n).next n).next = (m n).next := by
    rw [setNext_next]; split <;> rfl
  simp only [kdlistDelete, join, h, setNext_prev]

theorem kdlistPopHead_cons {m : Store α} {head x : α} {xs : List α}
    (h : Ring m head (x :: xs)) :
    kdlistPopHead m head = (some x, join m (m x).prev (m x).next) := by
  have hl : Link m head x := h.link_of_split (P := []) (Q := xs ++ [head]) (by simp)
  have hx : x ≠ head := h.ne_head (by simp)
  rw [kdlistPopHead, if_neg (by rw [kdlistIsEmpty_iff h]; simp)]
  simp only [hl.1, hl.2, setNext_of_ne m hx, join]

theorem kdlistPopHead_nil {m : Store α} {head : α} (h : Ring m head []) :
    kdlistPopHead m head = (none, m) := by
  rw [kdlistPopHead, if_pos ((kdlistIsEmpty_iff h).mpr rfl)]

theorem kdlistPushTail_eq {m : Store α} {head n : α} {xs : List α} (h : Ring m head xs)
    (hn : n ∉ head :: xs) :
    kdlistPushTail m head n = join (join m (m head).prev n) n (m (m head).prev).next := by
  have hnh : n ≠ head := fun e => hn (by simp [e])
  obtain ⟨P, a, hP⟩ := List.eq_nil_or_concat (head :: xs) |>.resolve_left (by simp)
  rw [List.concat_eq_append] at hP
  have hl : Link m a head := h.link_of_split (P := P) (Q := []) (by rw [hP]; simp)
  have hna : n ≠ a := fun e => hn (by rw [hP]; simp [e])
  rw [hl.2, hl.1, kdlistPushTail]
  split
  next he =>
    have hxs : xs = [] := (kdlistIsEmpty_iff h).mp he
    subst hxs
    have ha : a = head := by
      have := congrArg List.getLast? hP
      simpa using this.symm
    subst ha
    apply store_ext <;> intro x <;>
      simp only [setNext_next, setNext_prev, setPrev_next, setPrev_prev, join_next, join_prev]
    by_cases hx : x = n
    · subst hx
      rw [if_pos rfl, if_neg hnh, if_pos rfl]
    · rw [if_neg hx, if_neg hx]
  next he =>
    have hp := hl.2
    apply store_ext <;> intro x <;>
      simp only [setNext_next, setNext_prev, setPrev_next, setPrev_prev, join_next, join_prev,
        if_neg (Ne.symm hnh), hp]

theorem kdlistPopTail_concat {m : Store α} {head x : α} {xs : List α}
    (h : Ring m head (xs ++ [x])) :
    kdlistPopTail m head = (some x, join m (m x).prev (m x).next) := by
  have hl : Link m x head := h.link_of_split (P := head :: xs) (Q := []) (by simp)
  have hx : x ≠ head := h.ne_head (by simp)
  rw [kdlistPopTail, if_neg (by rw [kdlistIsEmpty_iff h]; simp)]
  simp only [hl.1, hl.2, setPrev_of_ne m hx, Prod.mk.injEq, true_and]
  apply store_ext <;> intro y <;>
    simp only [setNext_next, setNext_prev, setPrev_next, setPrev_prev, join_next, join_prev]

theorem kdlistPopTail_nil {m : Store α} {head : α} (h : Ring m head []) :
    kdlistPopTail m head = (none, m) := by
  rw [kdlistPopTail, if_pos ((kdlistIsEmpty_iff h).mpr rfl)]

theorem kdlistPushHead_eq {m : Store α} {head n : α} {xs : List α} (h : Ring m head xs)
    (hn : n ∉ head :: xs) : kdlistPushHead m head n = join (join m head n) n (m head).next := by
  have hnh : n ≠ head := fun e => hn (by simp [e])
  rw [kdlistPushHead]
  split
  next he =>
    have hxs : xs = [] := (kdlistIsEmpty_iff h).mp he
    subst hxs
    rw [(Ring.nil_iff.mp h).1]
    apply store_ext <;> intro x <;>
      simp only [setNext_next, setNext_prev, setPrev_next, setPrev_prev, join_next, join_prev]
    by_cases hx : x = n
    · subst hx
      rw [if_pos rfl, if_neg hnh, if_pos rfl]
    · rw [if_neg hx, if_neg hx]
  next he =>
    have hnb : n ≠ (m head).next := fun e => hn (e ▸ h.head_neighbours_mem.2)
    apply store_ext <;> intro x <;>
      simp only [setNext_next, setNext_prev, setPrev_next, setPrev_prev, join_next, join_prev]
    · by_cases hx : x = n
      · subst hx
        rw [if_neg hnh, if_pos rfl, if_pos rfl]
      · rw [if_neg hx, if_neg hx]
    · by_cases hx : x = n
      · subst hx
        rw [if_pos rfl, if_neg hnb, if_pos rfl]
      · rw [if_neg hx, if_neg hx]

theorem kdlistPushAfter_eq {m : Store α} {base n : α} (hb : n ≠ base) (hc : n ≠ (m base).next) :
    kdlistPushAfter m base n = join (join m base n) n (m base).next := by
  apply store_ext <;> intro x <;>
    simp only [kdlistPushAfter, setNext_next, setNext_prev, setPrev_next, setPrev_prev, join_next,
      join_prev]
  · by_cases hx : x = n
    · subst hx
      rw [if_neg hb, if_pos rfl, if_pos rfl]
    · rw [if_neg hx, if_neg hx]
  · by_cases hx : x = n
    · subst hx
      rw [if_pos rfl, if_neg hc, if_pos rfl]
    · rw [if_neg hx, if_neg hx]

/-! ### The traversal -/

theorem kdlistForEachFrom_chain {m : Store α} {head : α} : ∀ (xs : List α) (a : α) (fuel : Nat),
    (a :: xs ++ [head]).IsChain (Link m) → (∀ x ∈ xs, x ≠ head) → xs.length < fuel →
    kdlistForEachFrom m head fuel (m a).next = some xs := by
  intro xs
  induction xs with
  | nil =>
    intro a fuel hc _ hf
    obtain ⟨k, rfl⟩ : ∃ k, fuel = k + 1 := ⟨fuel - 1, by simp at hf; omega⟩
    have hl : Link m a head := by simpa using hc
    rw [hl.1, kdlistForEachFrom, if_pos rfl]
  | cons x t ih =>
    intro a fuel hc hne hf
    rw [List.length_cons] at hf
    obtain ⟨k, rfl⟩ : ∃ k, fuel = k + 1 := ⟨fuel - 1, by omega⟩
    rw [List.cons_append, List.cons_append, List.isChain_cons_cons] at hc
    rw [hc.1.1, kdlistForEachFrom, if_neg (hne x (by simp)),
      ih x k hc.2 (fun y hy => hne y (by simp [hy])) (by omega), Option.map_some]

/-- **The traversal of a ring visits exactly its elements, in order**, whenever it
is given one iteration more than there are elements. -/
theorem kdlistForEach_ring {m : Store α} {head : α} {xs : List α} (h : Ring m head xs) {fuel : Nat}
    (hf : xs.length < fuel) : kdlistForEach m head fuel = some xs :=
  kdlistForEachFrom_chain xs head fuel h.chain (fun _ hx => h.ne_head hx) hf

/-- Reading backwards is reading the reversed store forwards. -/
theorem kdlistForEachReverseFrom_eq (m : Store α) (head : α) : ∀ (fuel : Nat) (pos : α),
    kdlistForEachReverseFrom m head fuel pos =
      kdlistForEachFrom (fun x => ⟨(m x).prev, (m x).next⟩) head fuel pos := by
  intro fuel
  induction fuel with
  | zero => intro pos; rfl
  | succ fuel ih =>
    intro pos
    rw [kdlistForEachReverseFrom, kdlistForEachFrom, ih]

/-- **The backward traversal of a ring visits its elements in reverse.** -/
theorem kdlistForEachReverse_ring {m : Store α} {head : α} {xs : List α} (h : Ring m head xs)
    {fuel : Nat} (hf : xs.length < fuel) : kdlistForEachReverse m head fuel = some xs.reverse := by
  rw [kdlistForEachReverse, kdlistForEachReverseFrom_eq]
  exact kdlistForEach_ring h.reverse (by rwa [List.length_reverse])

/-! ### A family of lists -/

variable [DecidableEq ι] {m : Store α} {I : Set ι} {head : ι → α} {lists : ι → List α} {i : ι}

/-- **Popping the head of list `i`** takes its first element and changes no other
list; an empty list gives NULL and nothing changes. -/
theorem kdlistPopHead_rings (h : Rings m I head lists) (hi : i ∈ I) {x : α} {xs : List α}
    (hx : lists i = x :: xs) :
    (kdlistPopHead m (head i)).1 = some x ∧
      Rings (kdlistPopHead m (head i)).2 I head (Function.update lists i xs) := by
  have hr : Ring m (head i) (x :: xs) := hx ▸ h.ring i hi
  rw [kdlistPopHead_cons hr]
  exact ⟨rfl, h.unlink hi (l := []) hx⟩

omit [DecidableEq ι] in
theorem kdlistPopHead_rings_nil (h : Rings m I head lists) (hi : i ∈ I) (hx : lists i = []) :
    kdlistPopHead m (head i) = (none, m) :=
  kdlistPopHead_nil (hx ▸ h.ring i hi)

/-- **Initialising a head** adds an empty list to the family. -/
theorem kdlistHeadInit_rings (h : Rings m I head lists) (hi : i ∉ I)
    (hn : ∀ j ∈ I, head i ∉ head j :: lists j) :
    Rings (kdlistHeadInit m (head i)) (insert i I) head (Function.update lists i []) := by
  have hne : ∀ j ∈ I, j ≠ i := fun j hj e => hi (e ▸ hj)
  refine ⟨fun j hj => ?_, disjoint_update h.disjoint (fun j hj _ => ?_)⟩
  · rcases hj with rfl | hj
    · rw [Function.update_self]
      exact kdlistHeadInit_ring m _
    · rw [Function.update_of_ne (hne j hj)]
      refine (h.ring j hj).congr (fun x hx => ?_)
      have hx' : x ≠ head i := fun e => hn j hj (e ▸ hx)
      rw [kdlistHeadInit, setPrev_of_ne _ hx', setNext_of_ne _ hx']
  · exact List.disjoint_singleton.mpr (hn j hj)

/-- **Popping the tail of list `i`** takes its last element and changes no other list. -/
theorem kdlistPopTail_rings (h : Rings m I head lists) (hi : i ∈ I) {x : α} {xs : List α}
    (hx : lists i = xs ++ [x]) :
    (kdlistPopTail m (head i)).1 = some x ∧
      Rings (kdlistPopTail m (head i)).2 I head (Function.update lists i xs) := by
  have hr : Ring m (head i) (xs ++ [x]) := hx ▸ h.ring i hi
  rw [kdlistPopTail_concat hr]
  refine ⟨rfl, ?_⟩
  have hu := h.unlink hi hx
  rwa [List.append_nil] at hu

omit [DecidableEq ι] in
theorem kdlistPopTail_rings_nil (h : Rings m I head lists) (hi : i ∈ I) (hx : lists i = []) :
    kdlistPopTail m (head i) = (none, m) :=
  kdlistPopTail_nil (hx ▸ h.ring i hi)

/-- **Pushing an unlinked node at the head of list `i`** puts it first there and
changes no other list. -/
theorem kdlistPushHead_rings (h : Rings m I head lists) (hi : i ∈ I) {n : α}
    (hn : ∀ j ∈ I, n ∉ head j :: lists j) :
    Rings (kdlistPushHead m (head i) n) I head (Function.update lists i (n :: lists i)) := by
  rw [kdlistPushHead_eq (h.ring i hi) (hn i hi)]
  exact h.link hi (l := []) (P := []) rfl rfl hn

/-- **Pushing an unlinked node behind a node of list `i`** changes no other list. -/
theorem kdlistPushAfter_rings (h : Rings m I head lists) (hi : i ∈ I) {n base : α} {l r : List α}
    (hl : lists i = l ++ base :: r) (hn : ∀ j ∈ I, n ∉ head j :: lists j) :
    Rings (kdlistPushAfter m base n) I head (Function.update lists i (l ++ base :: n :: r)) := by
  have hr : Ring m (head i) (l ++ base :: r) := hl ▸ h.ring i hi
  have hni : n ∉ head i :: (l ++ base :: r) := hl ▸ hn i hi
  have hb : n ≠ base := fun e => hni (by simp [e])
  have hc : n ≠ (m base).next := fun e => hni (e ▸ hr.neighbours_mem.2)
  rw [kdlistPushAfter_eq hb hc]
  have he : lists i = (l ++ [base]) ++ r := by rw [hl]; simp
  have hlk := h.link hi (P := head i :: l) (a := base) he (by simp) hn
  rwa [List.append_assoc] at hlk

/-- **Pushing an unlinked node at the tail of list `i`** appends it there and
changes no other list. -/
theorem kdlistPushTail_rings (h : Rings m I head lists) (hi : i ∈ I) {n : α}
    (hn : ∀ j ∈ I, n ∉ head j :: lists j) :
    Rings (kdlistPushTail m (head i) n) I head (Function.update lists i (lists i ++ [n])) := by
  have hr := h.ring i hi
  obtain ⟨P, a, hP⟩ := List.eq_nil_or_concat (head i :: lists i) |>.resolve_left (by simp)
  rw [List.concat_eq_append] at hP
  have hl : Link m a (head i) := hr.link_of_split (P := P) (Q := []) (by rw [hP]; simp)
  rw [kdlistPushTail_eq hr (hn i hi), hl.2]
  exact h.link hi (r := []) (by simp) hP hn

/-- **Deleting a node of list `i`** takes it out and changes no other list. -/
theorem kdlistDelete_rings (h : Rings m I head lists) (hi : i ∈ I) {n : α} {l r : List α}
    (hl : lists i = l ++ n :: r) :
    Rings (kdlistDelete m n) I head (Function.update lists i (l ++ r)) := by
  rw [kdlistDelete_eq]
  exact h.unlink hi hl

end DataStructures.Kdlist
