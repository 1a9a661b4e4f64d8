import Mathlib.Logic.Function.Basic
import Mathlib.Data.List.Nodup
import Mathlib.Tactic.Common

/-!
# `list/ksingly_linked_list.c`

The generic singly linked list: the functions of the file but for `kslist_is_first` and
`kslist_print`, and the loops `kslist_for_each` and `kslist_for_each_safe`.

A store says of every node whether it is there and what its `next` is.  A function is
`none` if it reads or writes a node that is not there, or if its loop does not end
within the rounds it was given.

`Chained m head xs`: the list of `head` consists of `xs`.  What a function writes lies behind
one node of the chain: `Chain.change` says what becomes of the whole chain.  There is one
theorem `_chained` for each function.
-/

namespace DataStructures.Kslist

variable {α : Type} [DecidableEq α]

/-- The nodes that are there, each with its `next`. -/
abbrev Store (α : Type) := α → Option (Option α)

/-- `x->next = y`. -/
def setNext (m : Store α) (x : α) (y : Option α) : Option (Store α) :=
  if (m x).isSome then some (Function.update m x (some y)) else none

/-- `kslist_head_init`. -/
def kslistHeadInit (m : Store α) (head : α) : Option (Store α) := setNext m head none

omit [DecidableEq α] in
/-- `kslist_is_empty`. -/
def kslistIsEmpty (m : Store α) (head : α) : Option Bool := do
  let next ← m head
  return next.isNone

omit [DecidableEq α] in
/-- `kslist_get_head`: the first node, or NULL. -/
def kslistGetHead (m : Store α) (head : α) : Option (Option α) := m head

/-- `kslist_push_head`. -/
def kslistPushHead (m : Store α) (head node : α) : Option (Store α) := do
  if ← kslistIsEmpty m head then
    let m ← setNext m head (some node)
    setNext m node none
  else
    let next ← m head
    let m ← setNext m node next
    setNext m head (some node)

omit [DecidableEq α] in
/-- The loop to the last node, from node `x` on. -/
def lastFrom (m : Store α) : Nat → α → Option α
  | 0, _ => none
  | fuel + 1, x => do
      match ← m x with
      | none => return x
      | some y => lastFrom m fuel y

/-- `kslist_push_tail`. -/
def kslistPushTail (fuel : Nat) (m : Store α) (head node : α) : Option (Store α) := do
  if ← kslistIsEmpty m head then
    let m ← setNext m head (some node)
    setNext m node none
  else
    let prev ← lastFrom m fuel head
    let m ← setNext m prev (some node)
    setNext m node none

/-- `kslist_push_after`. -/
def kslistPushAfter (m : Store α) (base node : α) : Option (Store α) := do
  let next ← m base
  let m ← setNext m node next
  setNext m base (some node)

omit [DecidableEq α] in
/-- `kslist_get_tail`. -/
def kslistGetTail (fuel : Nat) (m : Store α) (head : α) : Option α := lastFrom m fuel head

/-- `kslist_is_last`. -/
def kslistIsLast (fuel : Nat) (m : Store α) (head node : α) : Option Bool := do
  let last ← lastFrom m fuel head
  return last == node

/-- `kslist_pop_head`: the node, or NULL, and the store afterwards. -/
def kslistPopHead (m : Store α) (head : α) : Option (Option α × Store α) := do
  if ← kslistIsEmpty m head then return (none, m)
  else
    let node ← m head
    let next ← node.bind m
    let m ← setNext m head next
    return (node, m)

omit [DecidableEq α] in
/-- The loop of `kslist_pop_tail`, from `node` on: `prev` and `node` where it ends. -/
def prevLastFrom (m : Store α) : Nat → Option α → α → Option (Option α × α)
  | 0, _, _ => none
  | fuel + 1, prev, node => do
      match ← m node with
      | none => return (prev, node)
      | some next => prevLastFrom m fuel (some node) next

/-- `kslist_pop_tail`. -/
def kslistPopTail (fuel : Nat) (m : Store α) (head : α) : Option (Option α × Store α) := do
  if ← kslistIsEmpty m head then return (none, m)
  else
    let (prev, node) ← prevLastFrom m fuel none head
    let m ← prev.bind (fun prev => setNext m prev none)
    return (some node, m)

/-- The loop of `kslist_replace`, with `prev` before `node`. -/
def replaceFrom (m : Store α) (old new : α) : Nat → α → Option α → Option (Store α)
  | _, _, none => some m
  | 0, _, some _ => none
  | fuel + 1, prev, some node =>
      if node = old then do
        let next ← m old
        let m ← setNext m new next
        setNext m prev (some new)
      else do
        let next ← m node
        replaceFrom m old new fuel node next

/-- `kslist_replace`. -/
def kslistReplace (fuel : Nat) (m : Store α) (head old new : α) : Option (Store α) := do
  if ← kslistIsEmpty m head then return m
  else
    let node ← m head
    replaceFrom m old new fuel head node

omit [DecidableEq α] in
/-- `kslist_for_each`, from position `pos` on: the nodes it visits. -/
def forEachFrom (m : Store α) : Nat → Option α → Option (List α)
  | _, none => some []
  | 0, some _ => none
  | fuel + 1, some x => do
      let next ← m x
      let xs ← forEachFrom m fuel next
      return x :: xs

omit [DecidableEq α] in
/-- `kslist_for_each`: the nodes it visits. -/
def kslistForEach (fuel : Nat) (m : Store α) (head : α) : Option (List α) := do
  let next ← m head
  forEachFrom m fuel next

section ForEachSafe

variable {σ : Type} (store : σ → Store α) (body : σ → α → Option σ)

omit [DecidableEq α] in
/-- `kslist_for_each_safe`, from position `pos` on, with the next position `n` already
read.  After the body, `pos = n, n = pos->next` reads through `n` even where it is
NULL. -/
def forEachSafeFrom : Nat → σ → Option α → Option α → Option σ
  | _, s, none, _ => some s
  | 0, _, some _, _ => none
  | fuel + 1, s, some x, n => do
      let s ← body s x
      let next ← n.bind (store s)
      forEachSafeFrom fuel s n next

omit [DecidableEq α] in
/-- `kslist_for_each_safe` with a body that changes a state `s`, whose nodes are
`store s`. -/
def kslistForEachSafe (fuel : Nat) (s : σ) (head : α) : Option σ := do
  let pos ← store s head
  let n ← pos.bind (store s)
  forEachSafeFrom store body fuel s pos n

end ForEachSafe

/-- Both branches of `kslist_push_head` put the node between the head and what it points to. -/
theorem kslistPushHead_eq {m : Store α} {head node : α} {next : Option α}
    (hhead : m head = some next) (hnode : (m node).isSome) (hne : node ≠ head) :
    kslistPushHead m head node =
      some (Function.update (Function.update m node (some next)) head (some (some node))) := by
  rw [kslistPushHead, kslistIsEmpty, hhead]
  cases next with
  | none =>
    have hset : setNext m head (some node) = some (Function.update m head (some (some node))) :=
      if_pos (by rw [hhead]; rfl)
    simp only [Option.bind_eq_bind, Option.bind_some, Option.pure_def, Option.isNone_none, if_true]
    rw [hset, Option.bind_some, setNext, if_pos (by rw [Function.update_of_ne hne, hnode]),
      Function.update_comm hne.symm]
  | some y =>
    have hset : setNext m node (some y) = some (Function.update m node (some (some y))) :=
      if_pos hnode
    simp only [Option.bind_eq_bind, Option.bind_some, Option.pure_def, Option.isNone_some,
      Bool.false_eq_true, if_false]
    rw [hset, Option.bind_some, setNext, if_pos (by rw [Function.update_of_ne hne.symm, hhead]; rfl)]

/-! ### Lists -/

/-- The nodes after `x` are `xs`. -/
def Chain (m : Store α) : α → List α → Prop
  | x, [] => m x = some none
  | x, y :: ys => m x = some (some y) ∧ Chain m y ys

/-- The list of `head` is `xs`. -/
structure Chained (m : Store α) (head : α) (xs : List α) : Prop where
  nodup : (head :: xs).Nodup
  chain : Chain m head xs

variable {m m' : Store α} {head x n : α} {xs : List α} {fuel : Nat}

omit [DecidableEq α] in
/-- A chain reads only its own nodes. -/
theorem Chain.congr (h : Chain m x xs) (he : ∀ y ∈ x :: xs, m' y = m y) : Chain m' x xs := by
  induction xs generalizing x with
  | nil => exact (he x List.mem_cons_self).trans h
  | cons y ys ih =>
    exact ⟨(he x List.mem_cons_self).trans h.1,
      ih h.2 (fun z hz => he z (List.mem_cons_of_mem _ hz))⟩

omit [DecidableEq α] in
theorem Chain.forEachFrom (h : Chain m x xs) (hfuel : xs.length < fuel) :
    ∃ next, m x = some next ∧ Kslist.forEachFrom m fuel next = some xs := by
  induction xs generalizing x fuel with
  | nil =>
    obtain ⟨k, rfl⟩ := Nat.exists_eq_succ_of_ne_zero (Nat.ne_of_gt hfuel)
    exact ⟨none, h, rfl⟩
  | cons y ys ih =>
    rw [List.length_cons] at hfuel
    obtain ⟨k, rfl⟩ := Nat.exists_eq_succ_of_ne_zero (Nat.ne_of_gt (Nat.zero_lt_of_lt hfuel))
    obtain ⟨next, hn, hr⟩ := ih h.2 (show ys.length < k by omega)
    refine ⟨some y, h.1, ?_⟩
    rw [Kslist.forEachFrom, hn, Option.bind_eq_bind, Option.bind_some, hr]
    rfl

omit [DecidableEq α] in
/-- **A traversal visits the nodes of the list.** -/
theorem kslistForEach_chained (h : Chained m head xs) (hfuel : xs.length < fuel) :
    kslistForEach fuel m head = some xs := by
  obtain ⟨next, hn, hr⟩ := h.chain.forEachFrom hfuel
  rw [kslistForEach, hn, Option.bind_eq_bind, Option.bind_some, hr]

omit [DecidableEq α] in
/-- A node that comes before the same nodes as `x`. -/
theorem Chain.behind {y : α} (h : Chain m x xs) (hy : m' y = m x) (he : ∀ z ∈ xs, m' z = m z) :
    Chain m' y xs := by
  cases xs with
  | nil => exact hy.trans h
  | cons z zs => exact ⟨hy.trans h.1, h.2.congr he⟩

omit [DecidableEq α] in
theorem Chain.isSome (h : Chain m x xs) : ∃ next, m x = some next := by
  cases xs with
  | nil => exact ⟨none, h⟩
  | cons y ys => exact ⟨some y, h.1⟩

variable {P Q Q' xs' : List α} {b : α}

omit [DecidableEq α] in
/-- The chain from a node on. -/
theorem Chain.at (h : Chain m x xs) (hs : x :: xs = P ++ b :: Q) : Chain m b Q := by
  induction P generalizing x xs with
  | nil =>
    obtain ⟨rfl, rfl⟩ := List.cons.inj hs
    exact h
  | cons p P ih =>
    obtain ⟨rfl, rfl⟩ := List.cons.inj hs
    cases P with
    | nil => exact h.2
    | cons q P => exact ih h.2 rfl

omit [DecidableEq α] in
/-- **What comes after `b` has changed**, and nothing before it: so does the list. -/
theorem Chain.change (h : Chain m x xs) (hs : x :: xs = P ++ b :: Q)
    (hs' : x :: xs' = P ++ b :: Q') (hP : ∀ y ∈ P, m' y = m y) (hQ : Chain m' b Q') :
    Chain m' x xs' := by
  induction P generalizing x xs xs' with
  | nil =>
    obtain ⟨rfl, rfl⟩ := List.cons.inj hs
    rw [(List.cons.inj hs').2]
    exact hQ
  | cons p P ih =>
    obtain ⟨rfl, rfl⟩ := List.cons.inj hs
    obtain ⟨-, rfl⟩ := List.cons.inj hs'
    have hx := hP x List.mem_cons_self
    have hP' : ∀ y ∈ P, m' y = m y := fun y hy => hP y (List.mem_cons_of_mem x hy)
    cases P with
    | nil => exact ⟨hx.trans h.1, hQ⟩
    | cons q P => exact ⟨hx.trans h.1, ih h.2 rfl rfl hP'⟩

/-- The walk ends at a node whose `next` is NULL; linking a node there appends it. -/
theorem Chain.append (h : Chain m x xs) (hnodup : (x :: xs).Nodup) (hn : n ∉ x :: xs)
    (hfuel : xs.length < fuel) : ∃ last, lastFrom m fuel x = some last ∧ last ∈ x :: xs ∧
      m last = some none ∧
      Chain (Function.update (Function.update m last (some (some n))) n (some none)) x (xs ++ [n]) := by
  induction xs generalizing x fuel with
  | nil =>
    obtain ⟨k, rfl⟩ := Nat.exists_eq_succ_of_ne_zero (Nat.ne_of_gt hfuel)
    have hx : m x = some none := h
    have hxn : x ≠ n := fun he => hn (he ▸ List.mem_cons_self)
    refine ⟨x, ?_, List.mem_cons_self, hx, ?_, Function.update_self ..⟩
    · rw [lastFrom, hx]
      rfl
    · rw [Function.update_of_ne hxn, Function.update_self]
  | cons y ys ih =>
    rw [List.length_cons] at hfuel
    obtain ⟨k, rfl⟩ := Nat.exists_eq_succ_of_ne_zero (Nat.ne_of_gt (Nat.zero_lt_of_lt hfuel))
    obtain ⟨hx, hchain⟩ := h
    obtain ⟨hxy, hnodup⟩ := List.nodup_cons.mp hnodup
    obtain ⟨hnx, hn⟩ := List.ne_and_not_mem_of_not_mem_cons hn
    obtain ⟨last, hr, hmem, hlast, hc⟩ := ih hchain hnodup hn (show ys.length < k by omega)
    refine ⟨last, ?_, List.mem_cons_of_mem _ hmem, hlast, ?_, hc⟩
    · rw [lastFrom, hx, Option.bind_eq_bind, Option.bind_some]
      exact hr
    · have hxl : x ≠ last := fun he => hxy (he ▸ hmem)
      rw [Function.update_of_ne hnx.symm, Function.update_of_ne hxl, hx]

/-- **Pushing at the tail appends**, and touches no other node. -/
theorem kslistPushTail_chained (h : Chained m head xs) (hn : n ∉ head :: xs) (hm : m n ≠ none)
    (hfuel : xs.length < fuel) : ∃ m', kslistPushTail fuel m head n = some m' ∧
      Chained m' head (xs ++ [n]) ∧ ∀ x, x ∉ n :: head :: xs → m' x = m x := by
  obtain ⟨last, hr, hmem, hlast, hc⟩ := h.chain.append h.nodup hn hfuel
  have hne : n ≠ last := fun he => hn (he ▸ hmem)
  refine ⟨_, ?_, ⟨?_, hc⟩, fun x hx => ?_⟩
  · have hset : setNext m last (some n) = some (Function.update m last (some (some n))) :=
      if_pos (by rw [hlast]; rfl)
    have hset' : setNext (Function.update m last (some (some n))) n none =
        some (Function.update (Function.update m last (some (some n))) n (some none)) := by
      refine if_pos ?_
      rw [Function.update_of_ne hne]
      exact Option.isSome_iff_ne_none.mpr hm
    cases xs with
    | nil =>
      have hhead : last = head := List.mem_singleton.mp hmem
      subst hhead
      rw [kslistPushTail, kslistIsEmpty, hlast]
      simp only [Option.bind_eq_bind, Option.bind_some, Option.pure_def, Option.isNone_none, if_true]
      rw [hset, Option.bind_some, hset']
    | cons y ys =>
      rw [kslistPushTail, kslistIsEmpty, h.chain.1]
      simp only [Option.bind_eq_bind, Option.bind_some, Option.pure_def, Option.isNone_some,
        Bool.false_eq_true, if_false]
      rw [hr, Option.bind_some, hset, Option.bind_some, hset']
  · rw [← List.cons_append, List.nodup_append]
    refine ⟨h.nodup, List.nodup_singleton n, fun a ha b hb => ?_⟩
    rw [List.mem_singleton] at hb
    subst hb
    exact fun he => hn (he ▸ ha)
  · obtain ⟨hxn, hx⟩ := List.ne_and_not_mem_of_not_mem_cons hx
    have hxl : x ≠ last := fun he => hx (he ▸ hmem)
    rw [Function.update_of_ne hxn, Function.update_of_ne hxl]

/-! ### Changes behind a node -/

/-- **The list `xs` of `head` has become `xs'`**: only its nodes and those of `new` have been
written, and no others are on it. -/
structure Relinks (m m' : Store α) (head : α) (new xs xs' : List α) : Prop where
  chained : Chained m' head xs'
  same : ∀ x, x ∉ new ++ head :: xs → m' x = m x
  subset : xs' ⊆ new ++ xs

theorem setNext_of {y : Option α} (h : m x ≠ none) :
    setNext m x y = some (Function.update m x (some y)) :=
  if_pos (Option.isSome_iff_ne_none.mpr h)

/-- **A node pushed behind `b`** comes next after it. -/
theorem kslistPushAfter_chained (h : Chained m head xs) (hs : head :: xs = P ++ b :: Q)
    (hs' : head :: xs' = P ++ b :: n :: Q) (hn : n ∉ head :: xs) (hm : m n ≠ none) :
    ∃ m', kslistPushAfter m b n = some m' ∧ Relinks m m' head [n] xs xs' := by
  obtain ⟨next, hb⟩ := (h.chain.at hs).isSome
  have hnd := h.nodup
  have hperm : (head :: xs').Perm (n :: head :: xs) := by
    rw [hs, hs', List.append_cons, List.append_cons P b Q]
    exact List.perm_middle
  have hmem : ∀ y ∈ P ++ b :: Q, y ≠ n := by
    rintro y hy rfl
    exact hn (hs ▸ hy)
  have hnb : b ≠ n := hmem b (List.mem_append_right P List.mem_cons_self)
  have hrun : kslistPushAfter m b n =
      some (Function.update (Function.update m n (some next)) b (some (some n))) := by
    rw [kslistPushAfter, hb, Option.bind_eq_bind, Option.bind_some, setNext_of hm,
      Option.bind_eq_bind, Option.bind_some, setNext_of]
    rw [Function.update_of_ne hnb, hb]
    exact Option.some_ne_none next
  have hother : ∀ y, y ≠ b → y ≠ n →
      Function.update (Function.update m n (some next)) b (some (some n)) y = m y := by
    intro y hyb hyn
    rw [Function.update_of_ne hyb, Function.update_of_ne hyn]
  rw [hs] at hnd
  obtain ⟨-, hbQ, hPb⟩ := List.nodup_append.mp hnd
  refine ⟨_, hrun, ⟨?_, h.chain.change hs hs' ?_ ⟨Function.update_self .., ?_⟩⟩, ?_, ?_⟩
  · rw [hperm.nodup_iff, List.nodup_cons]
    exact ⟨hn, h.nodup⟩
  · intro y hy
    exact hother y (fun he => hPb y hy b List.mem_cons_self he)
      (hmem y (List.mem_append_left _ hy))
  · refine (h.chain.at hs).behind ?_ (fun z hz => ?_)
    · rw [Function.update_of_ne hnb.symm, Function.update_self, hb]
    · exact hother z (fun he => (List.nodup_cons.mp hbQ).1 (he ▸ hz))
        (hmem z (List.mem_append_right P (List.mem_cons_of_mem b hz)))
  · intro y hy
    rw [hs, List.singleton_append, List.mem_cons, not_or] at hy
    refine hother y ?_ hy.1
    rintro rfl
    exact hy.2 (List.mem_append_right P List.mem_cons_self)
  · exact ((hperm.trans (List.Perm.swap head n xs)).cons_inv).subset

/-- **Pushing at the head** is pushing behind it. -/
theorem kslistPushHead_chained (h : Chained m head xs) (hn : n ∉ head :: xs) (hm : m n ≠ none) :
    ∃ m', kslistPushHead m head n = some m' ∧ Relinks m m' head [n] xs (n :: xs) := by
  obtain ⟨next, hhead⟩ := h.chain.isSome
  have hne : n ≠ head := fun he => hn (he ▸ List.mem_cons_self)
  have heq : kslistPushHead m head n = kslistPushAfter m head n := by
    rw [kslistPushHead_eq hhead (Option.isSome_iff_ne_none.mpr hm) hne, kslistPushAfter, hhead,
      Option.bind_eq_bind, Option.bind_some, setNext_of hm, Option.bind_eq_bind, Option.bind_some,
      setNext_of]
    rw [Function.update_of_ne hne.symm, hhead]
    exact Option.some_ne_none next
  rw [heq]
  exact kslistPushAfter_chained h (P := []) rfl rfl hn hm

theorem kslistPopHead_nil (h : Chained m head []) : kslistPopHead m head = some (none, m) := by
  have hhead : m head = some none := h.chain
  rw [kslistPopHead, kslistIsEmpty, hhead]
  rfl

/-- **Popping the head** takes the first node. -/
theorem kslistPopHead_cons (h : Chained m head (x :: xs)) :
    ∃ m', kslistPopHead m head = some (some x, m') ∧ Relinks m m' head [] (x :: xs) xs := by
  obtain ⟨hhead, hx⟩ := h.chain
  obtain ⟨next, hnext⟩ := hx.isSome
  obtain ⟨hnot, hnd⟩ := List.nodup_cons.mp h.nodup
  have hrun : kslistPopHead m head = some (some x, Function.update m head (some next)) := by
    have hset : setNext m head next = some (Function.update m head (some next)) :=
      setNext_of (by rw [hhead]; exact Option.some_ne_none _)
    simp only [kslistPopHead, kslistIsEmpty, hhead, Option.bind_eq_bind, Option.bind_some, hnext,
      hset]
    rfl
  have hother : ∀ y, y ≠ head → Function.update m head (some next) y = m y :=
    fun y hy => Function.update_of_ne hy _ _
  refine ⟨_, hrun, ⟨?_, hx.behind ?_ (fun z hz => hother z ?_)⟩, fun y hy => hother y ?_,
    List.subset_cons_self x xs⟩
  · exact List.nodup_cons.mpr
      ⟨fun hc => hnot (List.mem_cons_of_mem x hc), (List.nodup_cons.mp hnd).2⟩
  · rw [Function.update_self, hnext]
  · rintro rfl
    exact hnot (List.mem_cons_of_mem x hz)
  · rintro rfl
    exact hy List.mem_cons_self

omit [DecidableEq α] in
/-- The loop of `kslist_pop_tail` stops at the last two nodes. -/
theorem Chain.prevLastFrom {z : α} {ys : List α} (h : Chain m x (ys ++ [z])) (prev : Option α)
    (hfuel : ys.length + 1 < fuel) : ∃ P b, x :: ys = P ++ [b] ∧
      Kslist.prevLastFrom m fuel prev x = some (some b, z) := by
  induction ys generalizing x fuel prev with
  | nil =>
    obtain ⟨k, rfl⟩ : ∃ k, fuel = k + 2 := ⟨fuel - 2, by
      rw [List.length_nil] at hfuel
      omega⟩
    obtain ⟨hx, hz⟩ : m x = some (some z) ∧ m z = some none := h
    refine ⟨[], x, rfl, ?_⟩
    rw [Kslist.prevLastFrom, hx, Option.bind_eq_bind, Option.bind_some]
    dsimp only
    rw [Kslist.prevLastFrom, hz]
    rfl
  | cons y ys ih =>
    rw [List.length_cons] at hfuel
    obtain ⟨k, rfl⟩ := Nat.exists_eq_succ_of_ne_zero (Nat.ne_of_gt (Nat.zero_lt_of_lt hfuel))
    obtain ⟨P, b, hP, hr⟩ := ih h.2 (some x) (show ys.length + 1 < k by omega)
    refine ⟨x :: P, b, by rw [hP]; rfl, ?_⟩
    rw [Kslist.prevLastFrom, h.1, Option.bind_eq_bind, Option.bind_some]
    exact hr

theorem kslistPopTail_nil (h : Chained m head []) :
    kslistPopTail fuel m head = some (none, m) := by
  have hhead : m head = some none := h.chain
  rw [kslistPopTail, kslistIsEmpty, hhead]
  rfl

/-- **Popping the tail** takes the last node. -/
theorem kslistPopTail_concat {z : α} (h : Chained m head (xs ++ [z]))
    (hfuel : xs.length + 1 < fuel) : ∃ m', kslistPopTail fuel m head = some (some z, m') ∧
      Relinks m m' head [] (xs ++ [z]) xs := by
  obtain ⟨P, b, hP, hr⟩ := h.chain.prevLastFrom none hfuel
  have hs : head :: (xs ++ [z]) = P ++ b :: [z] := by
    rw [← List.cons_append, hP, List.append_assoc]
    rfl
  have hb : m b ≠ none := by
    obtain ⟨next, hnext⟩ := (h.chain.at hs).isSome
    rw [hnext]
    exact Option.some_ne_none next
  have hnd : (head :: xs).Nodup :=
    h.nodup.sublist (List.Sublist.cons_cons head (List.sublist_append_left xs [z]))
  have hrun : kslistPopTail fuel m head = some (some z, Function.update m b (some none)) := by
    obtain ⟨next, hnext⟩ : ∃ next, m head = some (some next) := by
      cases xs with
      | nil => exact ⟨z, h.chain.1⟩
      | cons y ys => exact ⟨y, h.chain.1⟩
    simp only [kslistPopTail, kslistIsEmpty, hnext, Option.bind_eq_bind, Option.bind_some, hr,
      setNext_of hb]
    rfl
  have hother : ∀ y, y ≠ b → Function.update m b (some none) y = m y :=
    fun y hy => Function.update_of_ne hy _ _
  refine ⟨_, hrun, ⟨hnd, h.chain.change hs hP (fun y hy => hother y ?_) (Function.update_self ..)⟩,
    fun y hy => hother y ?_, List.subset_append_left xs [z]⟩
  · rintro rfl
    rw [hP] at hnd
    exact (List.nodup_append.mp hnd).2.2 y hy y List.mem_cons_self rfl
  · rintro rfl
    rw [hs] at hy
    exact hy (List.mem_append_right P List.mem_cons_self)

omit [DecidableEq α] in
theorem Chain.lastFrom_eq (h : Chain m x xs) (hfuel : xs.length < fuel) :
    lastFrom m fuel x = some ((x :: xs).getLast (List.cons_ne_nil x xs)) := by
  induction xs generalizing x fuel with
  | nil =>
    obtain ⟨k, rfl⟩ := Nat.exists_eq_succ_of_ne_zero (Nat.ne_of_gt hfuel)
    have hx : m x = some none := h
    rw [lastFrom, hx]
    rfl
  | cons y ys ih =>
    rw [List.length_cons] at hfuel
    obtain ⟨k, rfl⟩ := Nat.exists_eq_succ_of_ne_zero (Nat.ne_of_gt (Nat.zero_lt_of_lt hfuel))
    rw [lastFrom, h.1, Option.bind_eq_bind, Option.bind_some, List.getLast_cons_cons]
    exact ih h.2 (by omega)

/-- **`kslist_get_tail` and `kslist_is_last`** find the last node of a list that has one. -/
theorem kslistGetTail_chained {z : α} (h : Chained m head xs) (hz : xs.getLast? = some z)
    (hfuel : xs.length < fuel) : kslistGetTail fuel m head = some z ∧
      ∀ node, kslistIsLast fuel m head node = some (z == node) := by
  have hlast : lastFrom m fuel head = some z := by
    rw [h.chain.lastFrom_eq hfuel, ← hz, ← List.getLast?_eq_some_getLast, List.getLast?_cons, hz]
    rfl
  refine ⟨hlast, fun node => ?_⟩
  rw [kslistIsLast, hlast]
  rfl

/-! ### Replacing a node -/

/-- Without `old` the loop of `kslist_replace` does nothing. -/
theorem Chain.replaceFrom_absent {old new : α} (h : Chain m x xs) (hold : old ∉ xs)
    (hfuel : xs.length < fuel) : ∃ next, m x = some next ∧
      replaceFrom m old new fuel x next = some m := by
  induction xs generalizing x fuel with
  | nil =>
    obtain ⟨k, rfl⟩ := Nat.exists_eq_succ_of_ne_zero (Nat.ne_of_gt hfuel)
    exact ⟨none, h, rfl⟩
  | cons y ys ih =>
    rw [List.length_cons] at hfuel
    obtain ⟨k, rfl⟩ := Nat.exists_eq_succ_of_ne_zero (Nat.ne_of_gt (Nat.zero_lt_of_lt hfuel))
    obtain ⟨hy, hys⟩ := List.ne_and_not_mem_of_not_mem_cons hold
    obtain ⟨next, hnext, hr⟩ := ih h.2 hys (show ys.length < k by omega)
    refine ⟨some y, h.1, ?_⟩
    rw [replaceFrom, if_neg hy.symm, hnext]
    exact hr

/-- It stops at `old`, with the node before it. -/
theorem Chain.replaceFrom_present {old : α} (new : α) (h : Chain m x xs)
    (hs : x :: xs = P ++ b :: old :: Q) (hold : old ∉ P ++ [b]) (hfuel : xs.length < fuel) :
    ∃ next, m x = some next ∧ replaceFrom m old new fuel x next =
      (m old).bind (fun next => (setNext m new next).bind (fun m => setNext m b (some new))) := by
  induction P generalizing x xs fuel with
  | nil =>
    obtain ⟨rfl, rfl⟩ := List.cons.inj hs
    obtain ⟨k, rfl⟩ := Nat.exists_eq_succ_of_ne_zero (Nat.ne_of_gt (Nat.zero_lt_of_lt hfuel))
    refine ⟨some old, h.1, ?_⟩
    rw [replaceFrom, if_pos rfl]
    rfl
  | cons p P ih =>
    obtain ⟨rfl, hy⟩ := List.cons.inj hs
    obtain ⟨k, rfl⟩ := Nat.exists_eq_succ_of_ne_zero (Nat.ne_of_gt (Nat.zero_lt_of_lt hfuel))
    obtain ⟨y, ys, rfl⟩ := List.exists_cons_of_ne_nil (show xs ≠ [] by rw [hy]; simp)
    have hold' : old ∉ P ++ [b] := fun hc => hold (List.mem_cons_of_mem _ hc)
    have hyold : y ≠ old := by
      rintro rfl
      apply hold'
      cases P with
      | nil => exact (List.cons.inj hy).1 ▸ List.mem_cons_self
      | cons q P => exact (List.cons.inj hy).1 ▸ List.mem_cons_self
    rw [List.length_cons] at hfuel
    obtain ⟨next, hnext, hr⟩ := ih h.2 hy hold' (show ys.length < k by omega)
    refine ⟨some y, h.1, ?_⟩
    rw [replaceFrom, if_neg hyold, hnext]
    exact hr

theorem kslistReplace_eq (old new : α) (hm : ∃ next, m head = some next ∧
      replaceFrom m old new fuel head next = some m') (hempty : m head = some none → m' = m) :
    kslistReplace fuel m head old new = some m' := by
  obtain ⟨next, hhead, hr⟩ := hm
  rw [kslistReplace, kslistIsEmpty, hhead]
  cases next with
  | none =>
    rw [hempty hhead]
    rfl
  | some y => exact hr

/-- **Replacing a node that is not on the list** does nothing. -/
theorem kslistReplace_absent {old new : α} (h : Chained m head xs) (hold : old ∉ xs)
    (hfuel : xs.length < fuel) : kslistReplace fuel m head old new = some m :=
  kslistReplace_eq old new (h.chain.replaceFrom_absent hold hfuel) (fun _ => rfl)

omit [DecidableEq α] in
theorem Chain.ne_end (h : Chain m x xs) (hxs : xs ≠ []) : m x ≠ some none := by
  cases xs with
  | nil => exact absurd rfl hxs
  | cons y ys =>
    intro hnone
    have hx := h.1
    rw [hnone] at hx
    cases hx

omit [DecidableEq α] in
theorem nodup_replace {old new : α} {l r : List α} (h : (l ++ old :: r).Nodup)
    (hn : new ∉ l ++ old :: r) : (l ++ new :: r).Nodup := by
  have hsub : (l ++ r).Sublist (l ++ old :: r) := (List.sublist_cons_self old r).append_left l
  rw [List.nodup_middle, List.nodup_cons]
  exact ⟨fun hc => hn (hsub.subset hc), h.sublist hsub⟩

/-- **Replacing a node** puts the other one in its place. -/
theorem kslistReplace_present {old new : α} {l r : List α} (h : Chained m head (l ++ old :: r))
    (hn : new ∉ head :: (l ++ old :: r)) (hm : m new ≠ none)
    (hfuel : (l ++ old :: r).length < fuel) :
    ∃ m', kslistReplace fuel m head old new = some m' ∧
      Relinks m m' head [new] (l ++ old :: r) (l ++ new :: r) := by
  obtain ⟨P, b, hP⟩ := List.eq_nil_or_concat (head :: l) |>.resolve_left (by simp)
  rw [List.concat_eq_append] at hP
  have hs : head :: (l ++ old :: r) = P ++ b :: (old :: r) := by
    rw [← List.cons_append, hP, List.append_assoc]
    rfl
  have hs' : head :: (l ++ new :: r) = P ++ b :: (new :: r) := by
    rw [← List.cons_append, hP, List.append_assoc]
    rfl
  have hnd := h.nodup
  rw [hs, List.append_cons] at hnd
  obtain ⟨hPb, hor, hPo⟩ := List.nodup_append.mp hnd
  obtain ⟨hbold, hr⟩ := h.chain.at hs
  obtain ⟨next, hnext⟩ := hr.isSome
  have hmem : ∀ y ∈ head :: (l ++ old :: r), y ≠ new := by
    rintro y hy rfl
    exact hn hy
  have hbn : b ≠ new := hmem b (hs ▸ List.mem_append_right P List.mem_cons_self)
  have hrun : kslistReplace fuel m head old new =
      some (Function.update (Function.update m new (some next)) b (some (some new))) := by
    obtain ⟨first, hfirst, hrun⟩ := h.chain.replaceFrom_present new hs
      (fun hc => hPo old hc old List.mem_cons_self rfl) hfuel
    refine kslistReplace_eq old new ⟨first, hfirst, ?_⟩
      (fun hnone => absurd hnone (h.chain.ne_end (by simp)))
    rw [hrun, hnext, Option.bind_some, setNext_of hm, Option.bind_some, setNext_of]
    rw [Function.update_of_ne hbn, hbold]
    exact Option.some_ne_none _
  have hother : ∀ y, y ≠ b → y ≠ new →
      Function.update (Function.update m new (some next)) b (some (some new)) y = m y := by
    intro y hyb hyn
    rw [Function.update_of_ne hyb, Function.update_of_ne hyn]
  refine ⟨_, hrun, ⟨nodup_replace (l := head :: l) h.nodup hn,
    h.chain.change hs hs' ?_ ⟨Function.update_self .., hr.behind ?_ ?_⟩⟩, ?_, ?_⟩
  · intro y hy
    refine hother y (fun he => (List.nodup_append.mp hPb).2.2 y hy b List.mem_cons_self he) ?_
    exact hmem y (hs ▸ List.mem_append_left _ hy)
  · rw [Function.update_of_ne hbn.symm, Function.update_self, hnext]
  · intro z hz
    have hz' : z ∈ old :: r := List.mem_cons_of_mem old hz
    refine hother z ?_ (hmem z (List.mem_cons_of_mem head (List.mem_append_right l hz')))
    exact fun he => hPo b (List.mem_append_right P List.mem_cons_self) z hz' he.symm
  · intro y hy
    rw [hs, List.singleton_append, List.mem_cons, not_or] at hy
    refine hother y ?_ hy.1
    rintro rfl
    exact hy.2 (List.mem_append_right P List.mem_cons_self)
  · intro y hy
    simp only [List.singleton_append, List.mem_cons, List.mem_append] at hy ⊢
    tauto

end DataStructures.Kslist
