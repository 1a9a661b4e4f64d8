import DataStructures.List.Kslist
import DataStructures.List.KdlistRun

/-!
# Runs of the singly linked list

Any number of heads in one heap, and any sequence of calls on them, as for the doubly linked
list.  `Op.run` is what the code does to the store and returns, `Op.apply` and `Op.value` are
what it does to the lists.  A head and a node are the same, so a node may be pushed behind a
head; a node is unlinked when it is on no list and is no head.

* `Op.run_family`: one call on a family of disjoint chains.
* `Run.family`: **after every run the lists are disjoint chains of the store**.
* `kslist_family`: what this says of the traversals and the last nodes.
-/

namespace DataStructures.Kslist

open Kdlist (insertAfter insertAfter_of_notMem insertAfter_append)

variable {α ι : Type} [DecidableEq α] [DecidableEq ι]

/-- A call on one of the lists, or on a node of one of them. -/
inductive Op (ι α : Type)
  | pushHead (i : ι) (node : α)
  | pushTail (i : ι) (node : α)
  | pushAfter (base node : α)
  | popHead (i : ι)
  | popTail (i : ι)
  | replace (i : ι) (old new : α)

namespace Op

/-- The call: what it returns and the store afterwards. -/
def run (fuel : Nat) (head : ι → α) (m : Store α) : Op ι α → Option (Option α × Store α)
  | pushHead i node => (kslistPushHead m (head i) node).map (fun m => (none, m))
  | pushTail i node => (kslistPushTail fuel m (head i) node).map (fun m => (none, m))
  | pushAfter base node => (kslistPushAfter m base node).map (fun m => (none, m))
  | popHead i => kslistPopHead m (head i)
  | popTail i => kslistPopTail fuel m (head i)
  | replace i old new => (kslistReplace fuel m (head i) old new).map (fun m => (none, m))

/-- What it returns, seen from the lists. -/
def value (lists : ι → List α) : Op ι α → Option α
  | popHead i => (lists i).head?
  | popTail i => (lists i).getLast?
  | _ => none

/-- What it makes of the lists. -/
def apply (head : ι → α) (lists : ι → List α) : Op ι α → ι → List α
  | pushHead i node => Function.update lists i (node :: lists i)
  | pushTail i node => Function.update lists i (lists i ++ [node])
  | pushAfter base node => fun j => (insertAfter base node (head j :: lists j)).tail
  | popHead i => Function.update lists i (lists i).tail
  | popTail i => Function.update lists i (lists i).dropLast
  | replace i old new => Function.update lists i ((lists i).replace old new)

/-- List `j` is the one it works on. -/
def On (head : ι → α) (lists : ι → List α) : Op ι α → ι → Prop
  | pushHead i _, j => j = i
  | pushTail i _, j => j = i
  | pushAfter base _, j => base ∈ head j :: lists j
  | popHead i, j => j = i
  | popTail i, j => j = i
  | replace i _ _, j => j = i

/-- The node is there, on no list and no head. -/
def Unlinked (m : Store α) (I : Set ι) (head : ι → α) (lists : ι → List α) (n : α) : Prop :=
  m n ≠ none ∧ ∀ j ∈ I, n ∉ head j :: lists j

/-- Only unlinked nodes are pushed or used as replacement, and they are pushed behind a head or
a linked node.  The node that is replaced may be any. -/
def Legal (m : Store α) (I : Set ι) (head : ι → α) (lists : ι → List α) : Op ι α → Prop
  | pushHead i node => i ∈ I ∧ Unlinked m I head lists node
  | pushTail i node => i ∈ I ∧ Unlinked m I head lists node
  | pushAfter base node => (∃ i ∈ I, base ∈ head i :: lists i) ∧ Unlinked m I head lists node
  | popHead i => i ∈ I
  | popTail i => i ∈ I
  | replace i _ new => i ∈ I ∧ Unlinked m I head lists new

/-- There are more rounds for a loop than nodes on the list. -/
def Enough (fuel : Nat) (I : Set ι) (head : ι → α) (lists : ι → List α) (op : Op ι α) : Prop :=
  ∀ j ∈ I, op.On head lists j → (lists j).length < fuel

end Op

/-- The store and the lists after a run that has initialised the heads of `I`. -/
inductive Run (head : ι → α) : Set ι → Store α → (ι → List α) → Prop
  | start (m : Store α) : Run head ∅ m (fun _ => [])
  | init {I : Set ι} {m m' : Store α} {lists : ι → List α} {i : ι} : Run head I m lists → i ∉ I →
      (∀ j ∈ I, head i ∉ head j :: lists j) → kslistHeadInit m (head i) = some m' →
      Run head (insert i I) m' (Function.update lists i [])
  | op {I : Set ι} {m m' : Store α} {lists : ι → List α} {op : Op ι α} {fuel : Nat}
      {value : Option α} : Run head I m lists → op.Legal m I head lists →
      op.Enough fuel I head lists → op.run fuel head m = some (value, m') →
      Run head I m' (op.apply head lists)

/-! ### Families of chains -/

variable {m m' : Store α} {I : Set ι} {head : ι → α} {lists : ι → List α} {i : ι} {n : α}
  {fuel : Nat}

/-- One chain for every index of `I`, no two of them sharing a node. -/
structure Family (m : Store α) (I : Set ι) (head : ι → α) (lists : ι → List α) : Prop where
  chained : ∀ i ∈ I, Chained m (head i) (lists i)
  disjoint : ∀ i ∈ I, ∀ j ∈ I, i ≠ j → (head i :: lists i).Disjoint (head j :: lists j)

namespace Family

omit [DecidableEq α] in
/-- **A change of list `i`**, with nodes that are on no list. -/
theorem relinks (h : Family m I head lists) (hi : i ∈ I) {new xs : List α}
    (hnew : ∀ n ∈ new, ∀ j ∈ I, n ∉ head j :: lists j)
    (hr : Relinks m m' (head i) new (lists i) xs) :
    Family m' I head (Function.update lists i xs) := by
  have hother : ∀ j ∈ I, j ≠ i → ∀ x ∈ head j :: lists j, x ∉ new ++ head i :: lists i := by
    intro j hj hji x hx hc
    rcases List.mem_append.mp hc with hc | hc
    · exact hnew x hc j hj hx
    · exact h.disjoint j hj i hi hji hx hc
  have hsub : ∀ x ∈ head i :: xs, x ∈ new ++ head i :: lists i := by
    intro x hx
    rcases List.mem_cons.mp hx with rfl | hx
    · exact List.mem_append_right _ List.mem_cons_self
    · rcases List.mem_append.mp (hr.subset hx) with hx | hx
      · exact List.mem_append_left _ hx
      · exact List.mem_append_right _ (List.mem_cons_of_mem _ hx)
  have hdisj := Lib.disjoint_update h.disjoint (fun j hj hji x hx hx' => hother j hj hji x hx (hsub x hx'))
  refine ⟨fun j hj => ?_, fun j hj k hk => ?_⟩
  · by_cases hji : j = i
    · subst hji
      rw [Function.update_self]
      exact hr.chained
    · rw [Function.update_of_ne hji]
      have hc := h.chained j hj
      exact ⟨hc.nodup, hc.chain.congr (fun x hx => hr.same x (hother j hj hji x hx))⟩
  · exact hdisj j (Or.inr hj) k (Or.inr hk)

omit [DecidableEq α] [DecidableEq ι] in
/-- Only the lists at indices of `I` matter. -/
theorem of_eq {lists' : ι → List α} (h : Family m I head lists) (he : ∀ i ∈ I, lists' i = lists i) :
    Family m I head lists' :=
  ⟨fun i hi => he i hi ▸ h.chained i hi, fun i hi j hj => he i hi ▸ he j hj ▸ h.disjoint i hi j hj⟩

/-- **Initialising a head** adds an empty list. -/
theorem init (h : Family m I head lists) (hi : i ∉ I)
    (hn : ∀ j ∈ I, head i ∉ head j :: lists j) (hr : kslistHeadInit m (head i) = some m') :
    Family m' (insert i I) head (Function.update lists i []) := by
  have hm' : m' = Function.update m (head i) (some none) := by
    rw [kslistHeadInit, setNext] at hr
    split at hr
    · exact (Option.some.inj hr).symm
    · cases hr
  subst hm'
  have hne : ∀ j ∈ I, j ≠ i := fun j hj e => hi (e ▸ hj)
  refine ⟨fun j hj => ?_, Lib.disjoint_update h.disjoint (fun j hj _ => ?_)⟩
  · rcases hj with rfl | hj
    · rw [Function.update_self]
      exact ⟨List.nodup_singleton _, Function.update_self ..⟩
    · rw [Function.update_of_ne (hne j hj)]
      have hc := h.chained j hj
      refine ⟨hc.nodup, hc.chain.congr (fun x hx => Function.update_of_ne ?_ _ _)⟩
      rintro rfl
      exact hn j hj hx
  · exact List.disjoint_singleton.mpr (hn j hj)

end Family

/-! ### One call -/

/-- Behind a cell that is on no list, nothing is put in. -/
theorem insertAfter_tail_of_notMem {base : α} {xs : List α} {a : α} (h : base ∉ a :: xs) :
    (insertAfter base n (a :: xs)).tail = xs := by
  rw [insertAfter_of_notMem h]
  rfl

/-- **A call on one list leaves every other one as it is.** -/
theorem Op.apply_of_not_on {op : Op ι α} {j : ι} (h : ¬ op.On head lists j) :
    op.apply head lists j = lists j := by
  cases op with
  | pushHead i node => exact Function.update_of_ne h _ _
  | pushTail i node => exact Function.update_of_ne h _ _
  | pushAfter base node => exact insertAfter_tail_of_notMem h
  | popHead i => exact Function.update_of_ne h _ _
  | popTail i => exact Function.update_of_ne h _ _
  | replace i old new => exact Function.update_of_ne h _ _

omit [DecidableEq α] [DecidableEq ι] in
theorem Op.Unlinked.disjoint (hn : Op.Unlinked m I head lists n) :
    ∀ k ∈ [n], ∀ j ∈ I, k ∉ head j :: lists j :=
  List.forall_mem_singleton.mpr hn.2

/-- Pushing a node behind a head, or behind a node of a list. -/
theorem Family.pushAfter (h : Family m I head lists) {base : α} (hi : i ∈ I)
    (hb : base ∈ head i :: lists i) (hn : Op.Unlinked m I head lists n) :
    ∃ m', kslistPushAfter m base n = some m' ∧
      Family m' I head ((Op.pushAfter base n : Op ι α).apply head lists) := by
  obtain ⟨P, Q, hPQ⟩ := List.append_of_mem hb
  have hc := h.chained i hi
  have hbP : base ∉ P := by
    have hnd := hc.nodup
    rw [hPQ] at hnd
    exact fun hm => (List.nodup_append.mp hnd).2.2 base hm base List.mem_cons_self rfl
  have hins : insertAfter base n (head i :: lists i) = P ++ base :: n :: Q := by
    rw [hPQ, insertAfter_append hbP]
  have hs' : head i :: (insertAfter base n (head i :: lists i)).tail = P ++ base :: n :: Q := by
    rw [← hins, insertAfter]
    split <;> rfl
  obtain ⟨m', hr, hm'⟩ := kslistPushAfter_chained hc hPQ hs' (hn.2 i hi) hn.1
  refine ⟨m', hr, (h.relinks hi hn.disjoint hm').of_eq (fun j hj => ?_)⟩
  by_cases hji : j = i
  · subst hji
    rw [Function.update_self]
    rfl
  · rw [Function.update_of_ne hji]
    exact insertAfter_tail_of_notMem (fun hm => h.disjoint j hj i hi hji hm hb)

/-- Replacing a node, which may be on the list or not. -/
theorem Family.replace (h : Family m I head lists) {old : α} (hi : i ∈ I)
    (hn : Op.Unlinked m I head lists n) (hlen : (lists i).length < fuel) :
    ∃ m', (Op.replace i old n : Op ι α).run fuel head m = some (none, m') ∧
      Family m' I head ((Op.replace i old n : Op ι α).apply head lists) := by
  have hc := h.chained i hi
  rw [Op.run, Op.apply]
  by_cases hold : old ∈ lists i
  · obtain ⟨l, r, hx⟩ := List.append_of_mem hold
    have hol : old ∉ l := by
      have hnd := (List.nodup_cons.mp hc.nodup).2
      rw [hx] at hnd
      exact fun hm => (List.nodup_append.mp hnd).2.2 old hm old List.mem_cons_self rfl
    have hnot := hn.2 i hi
    rw [hx] at hc hlen hnot
    obtain ⟨m', hr, hm'⟩ := kslistReplace_present hc hnot hn.1 hlen
    rw [hx, List.replace_append_right hol, List.replace_cons_self]
    exact ⟨m', by rw [hr]; rfl, h.relinks hi hn.disjoint (hx ▸ hm')⟩
  · rw [kslistReplace_absent hc hold hlen, List.replace_of_not_mem hold, Function.update_eq_self]
    exact ⟨m, rfl, h⟩

/-- **One call on a family of disjoint chains** returns what it should, and leaves the chains it
should. -/
theorem Op.run_family {op : Op ι α} (h : Family m I head lists) (hl : op.Legal m I head lists)
    (hf : op.Enough fuel I head lists) : ∃ m', op.run fuel head m = some (op.value lists, m') ∧
      Family m' I head (op.apply head lists) := by
  have hnil : ∀ k ∈ ([] : List α), ∀ j ∈ I, k ∉ head j :: lists j :=
    fun k hk => absurd hk List.not_mem_nil
  cases op with
  | pushHead i node =>
    obtain ⟨hi, hn⟩ := hl
    obtain ⟨m', hr, hm'⟩ := kslistPushHead_chained (h.chained i hi) (hn.2 i hi) hn.1
    exact ⟨m', by rw [run, hr]; rfl, h.relinks hi hn.disjoint hm'⟩
  | pushTail i node =>
    obtain ⟨hi, hn⟩ := hl
    obtain ⟨m', hr, hc, hsame⟩ := kslistPushTail_chained (h.chained i hi) (hn.2 i hi) hn.1
      (hf i hi rfl)
    have hsub : lists i ++ [node] ⊆ [node] ++ lists i := List.perm_append_comm.subset
    exact ⟨m', by rw [run, hr]; rfl, h.relinks hi hn.disjoint ⟨hc, hsame, hsub⟩⟩
  | pushAfter base node =>
    obtain ⟨⟨i, hi, hb⟩, hn⟩ := hl
    obtain ⟨m', hr, hm'⟩ := h.pushAfter hi hb hn
    exact ⟨m', by rw [run, hr]; rfl, hm'⟩
  | popHead i =>
    have hc := h.chained i hl
    rw [run, value, apply]
    cases hx : lists i with
    | nil =>
      rw [List.tail_nil, ← hx, Function.update_eq_self, hx, List.head?_nil]
      exact ⟨m, kslistPopHead_nil (hx ▸ hc), h⟩
    | cons x xs =>
      obtain ⟨m', hr, hm'⟩ := kslistPopHead_cons (hx ▸ hc)
      rw [← hx] at hm'
      exact ⟨m', hr, h.relinks hl hnil hm'⟩
  | popTail i =>
    have hc := h.chained i hl
    have hlen := hf i hl rfl
    rw [run, value, apply]
    rcases List.eq_nil_or_concat (lists i) with hx | ⟨xs, x, hx⟩
    · rw [hx, List.dropLast_nil, ← hx, Function.update_eq_self, hx, List.getLast?_nil]
      exact ⟨m, kslistPopTail_nil (hx ▸ hc), h⟩
    · rw [List.concat_eq_append] at hx
      rw [hx, List.length_append, List.length_singleton] at hlen
      obtain ⟨m', hr, hm'⟩ := kslistPopTail_concat (hx ▸ hc) hlen
      rw [hx, List.getLast?_concat, List.dropLast_concat]
      exact ⟨m', hr, h.relinks hl hnil (hx ▸ hm')⟩
  | replace i old new =>
    obtain ⟨hi, hn⟩ := hl
    exact h.replace hi hn (hf i hi rfl)

/-! ### Whole runs -/

/-- **After every run the lists are disjoint chains of the store.** -/
theorem Run.family (h : Run head I m lists) : Family m I head lists := by
  induction h with
  | start m =>
    exact ⟨fun i hi => absurd hi (Set.notMem_empty i), fun i hi => absurd hi (Set.notMem_empty i)⟩
  | init _ hi hn hr ih => exact ih.init hi hn hr
  | op _ hl hf hr ih =>
    obtain ⟨m', hr', hm'⟩ := Op.run_family ih hl hf
    rw [hr', Option.some.injEq, Prod.mk.injEq] at hr
    exact hr.2 ▸ hm'

/-- **The heads stand for a family of disjoint lists.**  After every run the traversal of each
list ends and visits exactly its nodes; `kslist_get_tail` and `kslist_is_last` find its last
one; no node is on it twice, and none on two lists.  Every further call returns what it
should, makes of the lists what it should, and changes none but the one it works on. -/
theorem kslist_family (head : ι → α) (I : Set ι) (m : Store α) (lists : ι → List α)
    (h : Run head I m lists) :
    (∀ i ∈ I, ∀ fuel, (lists i).length < fuel →
      kslistForEach fuel m (head i) = some (lists i) ∧
      ∀ last, (lists i).getLast? = some last → kslistGetTail fuel m (head i) = some last ∧
        ∀ node, kslistIsLast fuel m (head i) node = some (last == node)) ∧
    (∀ i ∈ I, (head i :: lists i).Nodup) ∧
    (∀ i ∈ I, ∀ j ∈ I, ∀ n, n ∈ head i :: lists i → n ∈ head j :: lists j → i = j) ∧
    ∀ op : Op ι α, op.Legal m I head lists → ∀ fuel, op.Enough fuel I head lists →
      ∃ m', op.run fuel head m = some (op.value lists, m') ∧
        (∀ j ∈ I, ∀ fuel, (op.apply head lists j).length < fuel →
          kslistForEach fuel m' (head j) = some (op.apply head lists j)) ∧
        ∀ j ∈ I, ¬ op.On head lists j → op.apply head lists j = lists j := by
  have hf := h.family
  refine ⟨fun i hi fuel hfuel => ⟨kslistForEach_chained (hf.chained i hi) hfuel, fun last hlast =>
    kslistGetTail_chained (hf.chained i hi) hlast hfuel⟩, fun i hi => (hf.chained i hi).nodup,
    fun i hi j hj n hni hnj => ?_, fun op hl fuel hfuel => ?_⟩
  · by_contra hij
    exact hf.disjoint i hi j hj hij hni hnj
  · obtain ⟨m', hr, hm'⟩ := op.run_family hf hl hfuel
    exact ⟨m', hr, fun j hj fuel hfuel => kslistForEach_chained (hm'.chained j hj) hfuel,
      fun j _ hon => Op.apply_of_not_on hon⟩

/-! ### Two lists -/

/-- The heads of two lists. -/
def exampleHead : Bool → Nat
  | false => 0
  | true => 1

/-- A store with two heads, where each cell holds NULL. -/
def startStore : Store Nat := Function.update (Function.update (fun _ => some none) 0 (some none)) 1 (some none)

/-- The store after `2` is pushed to one list, then `3` behind it. -/
def pairStore : Store Nat :=
  Function.update (Function.update (Function.update (Function.update startStore 1 (some (some 2)))
    2 (some none)) 3 (some none)) 2 (some (some 3))

/-- The store after `4` is pushed to the other list. -/
def exampleStore : Store Nat :=
  Function.update (Function.update pairStore 0 (some (some 4))) 4 (some none)

def exampleLists : Bool → List Nat
  | false => [4]
  | true => [2, 3]

theorem startStore_run : Run exampleHead Set.univ startStore (fun _ => []) := by
  have hfalse : Run exampleHead (insert false ∅) (Function.update (fun _ => some none) 0 (some none))
      (Function.update (fun _ => []) false []) :=
    .init (i := false) (.start (fun _ => some none)) (Set.notMem_empty _)
      (fun j hj => absurd hj (Set.notMem_empty j)) rfl
  have htrue : Run exampleHead (insert true (insert false ∅)) startStore
      (Function.update (Function.update (fun _ => []) false []) true []) := by
    refine .init (i := true) hfalse (by simp) (fun j hj => ?_) rfl
    obtain rfl : j = false := by simpa using hj
    decide
  have hall : insert true (insert false ∅) = (Set.univ : Set Bool) := by
    ext j
    cases j <;> simp
  have hlists : Function.update (Function.update (fun _ : Bool => ([] : List Nat)) false []) true [] =
      fun _ => [] := by
    funext j
    cases j <;> rfl
  rwa [hall, hlists] at htrue

theorem pairStore_run : Run exampleHead Set.univ pairStore
    ((Op.pushAfter 2 3).apply exampleHead ((Op.pushTail true 2).apply exampleHead (fun _ => []))) := by
  have hone : (Op.pushTail true 2).run 1 exampleHead startStore = some (none, Function.update
      (Function.update startStore 1 (some (some 2))) 2 (some none)) := rfl
  have htwo : (Op.pushAfter 2 3).run 2 exampleHead (Function.update (Function.update startStore 1
      (some (some 2))) 2 (some none)) = some (none, pairStore) := rfl
  refine .op (.op startStore_run ⟨Set.mem_univ _, by decide, fun j _ => ?_⟩
    (fun j _ _ => Nat.zero_lt_one) hone) ⟨⟨true, Set.mem_univ _, by decide⟩, by decide, fun j _ => ?_⟩ ?_ htwo
  · revert j
    decide
  · revert j
    decide
  · have hlength : ∀ j, ((Op.pushTail true 2).apply exampleHead (fun _ => []) j).length < 2 := by decide
    exact fun j _ _ => hlength j

theorem exampleStore_run : Run exampleHead Set.univ exampleStore exampleLists := by
  have hrun : (Op.pushTail false 4).run 1 exampleHead pairStore = some (none, exampleStore) := rfl
  have hlists : exampleLists = (Op.pushTail false 4).apply exampleHead ((Op.pushAfter 2 3).apply exampleHead
      ((Op.pushTail true 2).apply exampleHead (fun _ => []))) := by
    funext j
    cases j <;> rfl
  rw [hlists]
  refine .op pairStore_run ⟨Set.mem_univ _, by decide, fun j _ => ?_⟩ (fun j _ hj => ?_) hrun
  · revert j
    decide
  · obtain rfl : j = false := hj
    decide

theorem kslist_family_exampleStore :
    (∀ i ∈ Set.univ, ∀ fuel, (exampleLists i).length < fuel →
      kslistForEach fuel exampleStore (exampleHead i) = some (exampleLists i) ∧
      ∀ last, (exampleLists i).getLast? = some last →
        kslistGetTail fuel exampleStore (exampleHead i) = some last ∧
        ∀ node, kslistIsLast fuel exampleStore (exampleHead i) node = some (last == node)) ∧
    (∀ i ∈ Set.univ, (exampleHead i :: exampleLists i).Nodup) ∧
    (∀ i ∈ Set.univ, ∀ j ∈ Set.univ, ∀ n, n ∈ exampleHead i :: exampleLists i →
      n ∈ exampleHead j :: exampleLists j → i = j) ∧
    ∀ op : Op Bool Nat, op.Legal exampleStore Set.univ exampleHead exampleLists →
      ∀ fuel, op.Enough fuel Set.univ exampleHead exampleLists →
      ∃ m', op.run fuel exampleHead exampleStore = some (op.value exampleLists, m') ∧
        (∀ j ∈ Set.univ, ∀ fuel, (op.apply exampleHead exampleLists j).length < fuel →
          kslistForEach fuel m' (exampleHead j) = some (op.apply exampleHead exampleLists j)) ∧
        ∀ j ∈ Set.univ, ¬ op.On exampleHead exampleLists j →
          op.apply exampleHead exampleLists j = exampleLists j :=
  kslist_family exampleHead Set.univ exampleStore exampleLists exampleStore_run

end DataStructures.Kslist
