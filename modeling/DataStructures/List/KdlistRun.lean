import DataStructures.List.Kdlist
import Mathlib.Data.Set.Insert

/-!
# Runs of the doubly linked list

Any number of heads in one store, and any sequence of calls on them.  `Op` is one
call: `Op.run` is what the code does to the store and returns, `Op.apply` and
`Op.value` are what it does to the lists the heads stand for.

`Run head I m lists`: a run that has initialised the heads of `I` has led to the store
`m` and to the lists `lists`.  In it only unlinked nodes are pushed, and only linked
nodes are deleted or pushed behind.

* `Op.run_rings`: one call on a family of disjoint rings.
* `Run.rings`: **after every run the lists are disjoint rings of the store**.
* `kdlist_family`: what this says of the traversals, the links and the nodes.
-/

namespace DataStructures.Kdlist

open Lib

variable {α ι : Type} [DecidableEq α] [DecidableEq ι]

/-- A call on one of the lists, or on a node of one of them. -/
inductive Op (ι α : Type)
  | pushHead (i : ι) (node : α)
  | pushTail (i : ι) (node : α)
  | pushAfter (base node : α)
  | popHead (i : ι)
  | popTail (i : ι)
  | delete (node : α)

/-- `node` behind the first `base`. -/
def insertAfter (base node : α) : List α → List α
  | [] => []
  | x :: xs => if x = base then x :: node :: xs else x :: insertAfter base node xs

namespace Op

/-- The call: what it returns and the store afterwards. -/
def run (head : ι → α) (m : Store α) : Op ι α → Option α × Store α
  | pushHead i node => (none, kdlistPushHead m (head i) node)
  | pushTail i node => (none, kdlistPushTail m (head i) node)
  | pushAfter base node => (none, kdlistPushAfter m base node)
  | popHead i => kdlistPopHead m (head i)
  | popTail i => kdlistPopTail m (head i)
  | delete node => (none, kdlistDelete m node)

/-- What it returns, seen from the lists. -/
def value (lists : ι → List α) : Op ι α → Option α
  | popHead i => (lists i).head?
  | popTail i => (lists i).getLast?
  | _ => none

/-- What it makes of the lists. -/
def apply (lists : ι → List α) : Op ι α → ι → List α
  | pushHead i node => Function.update lists i (node :: lists i)
  | pushTail i node => Function.update lists i (lists i ++ [node])
  | pushAfter base node => fun j => insertAfter base node (lists j)
  | popHead i => Function.update lists i (lists i).tail
  | popTail i => Function.update lists i (lists i).dropLast
  | delete node => fun j => (lists j).erase node

/-- List `j` is the one it works on. -/
def On (lists : ι → List α) : Op ι α → ι → Prop
  | pushHead i _, j => j = i
  | pushTail i _, j => j = i
  | pushAfter base _, j => base ∈ lists j
  | popHead i, j => j = i
  | popTail i, j => j = i
  | delete node, j => node ∈ lists j

/-- No list of the family contains the cell `n`. -/
def Unlinked (I : Set ι) (head : ι → α) (lists : ι → List α) (n : α) : Prop :=
  ∀ j ∈ I, n ∉ head j :: lists j

/-- Only unlinked nodes are pushed, and only linked nodes deleted or pushed behind. -/
def Legal (I : Set ι) (head : ι → α) (lists : ι → List α) : Op ι α → Prop
  | pushHead i node => i ∈ I ∧ Unlinked I head lists node
  | pushTail i node => i ∈ I ∧ Unlinked I head lists node
  | pushAfter base node => (∃ i ∈ I, base ∈ lists i) ∧ Unlinked I head lists node
  | popHead i => i ∈ I
  | popTail i => i ∈ I
  | delete node => ∃ i ∈ I, node ∈ lists i

end Op

/-- The store and the lists after a run that has initialised the heads of `I`. -/
inductive Run (head : ι → α) : Set ι → Store α → (ι → List α) → Prop
  | start (m : Store α) : Run head ∅ m (fun _ => [])
  | init {I : Set ι} {m : Store α} {lists : ι → List α} {i : ι} : Run head I m lists → i ∉ I →
      Op.Unlinked I head lists (head i) →
      Run head (insert i I) (kdlistHeadInit m (head i)) (Function.update lists i [])
  | op {I : Set ι} {m : Store α} {lists : ι → List α} {op : Op ι α} : Run head I m lists →
      op.Legal I head lists → Run head I (op.run head m).2 (op.apply lists)

/-! ### One call -/

variable {m : Store α} {I : Set ι} {head : ι → α} {lists : ι → List α} {i : ι}

omit [DecidableEq ι] in
theorem insertAfter_of_notMem {base node : α} : ∀ {xs : List α}, base ∉ xs →
    insertAfter base node xs = xs := by
  intro xs
  induction xs with
  | nil => intro _; rfl
  | cons x xs ih =>
    intro h
    obtain ⟨hx, hxs⟩ := List.ne_and_not_mem_of_not_mem_cons h
    rw [insertAfter, if_neg (Ne.symm hx), ih hxs]

omit [DecidableEq ι] in
theorem insertAfter_append {base node : α} {r : List α} : ∀ {l : List α}, base ∉ l →
    insertAfter base node (l ++ base :: r) = l ++ base :: node :: r := by
  intro l
  induction l with
  | nil => intro _; rw [List.nil_append, insertAfter, if_pos rfl]; rfl
  | cons x l ih =>
    intro h
    obtain ⟨hx, hl⟩ := List.ne_and_not_mem_of_not_mem_cons h
    rw [List.cons_append, insertAfter, if_neg (Ne.symm hx), ih hl, List.cons_append]

/-- **A call on one list leaves every other one as it is.** -/
theorem Op.apply_of_not_on {op : Op ι α} {j : ι} (h : ¬ op.On lists j) : op.apply lists j = lists j := by
  cases op with
  | pushHead i node => exact Function.update_of_ne h _ _
  | pushTail i node => exact Function.update_of_ne h _ _
  | pushAfter base node => exact insertAfter_of_notMem h
  | popHead i => exact Function.update_of_ne h _ _
  | popTail i => exact Function.update_of_ne h _ _
  | delete node => exact List.erase_of_not_mem h

omit [DecidableEq α] [DecidableEq ι] in
/-- A linked node is on one list, at one place. -/
theorem linked_split (h : Rings m I head lists) (hi : i ∈ I) {n : α} (hn : n ∈ lists i) :
    (∃ l r, lists i = l ++ n :: r ∧ n ∉ l) ∧ ∀ j ∈ I, j ≠ i → n ∉ lists j := by
  obtain ⟨l, r, hlr⟩ := List.append_of_mem hn
  refine ⟨⟨l, r, hlr, ?_⟩, fun j hj hji hnj => ?_⟩
  · have hnd := (List.nodup_cons.mp (h.ring i hi).nodup).2
    rw [hlr, List.nodup_middle] at hnd
    exact fun hl => (List.nodup_cons.mp hnd).1 (List.mem_append_left r hl)
  · exact h.disjoint j hj i hi hji (List.mem_cons_of_mem _ hnj) (List.mem_cons_of_mem _ hn)

/-- **One call on a family of disjoint rings** returns what it should, and leaves the
rings it should. -/
theorem Op.run_rings {op : Op ι α} (h : Rings m I head lists) (hl : op.Legal I head lists) :
    (op.run head m).1 = op.value lists ∧ Rings (op.run head m).2 I head (op.apply lists) := by
  cases op with
  | pushHead i node => exact ⟨rfl, kdlistPushHead_rings h hl.1 hl.2⟩
  | pushTail i node => exact ⟨rfl, kdlistPushTail_rings h hl.1 hl.2⟩
  | pushAfter base node =>
    obtain ⟨⟨i, hi, hb⟩, hn⟩ := hl
    obtain ⟨⟨l, r, hlr, hbl⟩, hother⟩ := linked_split h hi hb
    refine ⟨rfl, (kdlistPushAfter_rings h hi hlr hn).of_eq (fun j hj => ?_)⟩
    by_cases hji : j = i
    · subst hji
      rw [Function.update_self]
      exact (congrArg _ hlr).trans (insertAfter_append hbl)
    · rw [Function.update_of_ne hji]
      exact insertAfter_of_notMem (hother j hj hji)
  | popHead i =>
    cases hx : lists i with
    | nil =>
      rw [run, kdlistPopHead_rings_nil h hl hx, value, apply, hx, List.tail_nil, ← hx,
        Function.update_eq_self]
      exact ⟨by rw [hx]; rfl, h⟩
    | cons x xs =>
      rw [run, value, apply, hx]
      exact kdlistPopHead_rings h hl hx
  | popTail i =>
    rcases List.eq_nil_or_concat (lists i) with hx | ⟨xs, x, hx⟩
    · rw [run, kdlistPopTail_rings_nil h hl hx, value, apply, hx, List.dropLast_nil, ← hx,
        Function.update_eq_self]
      exact ⟨by rw [hx]; rfl, h⟩
    · rw [List.concat_eq_append] at hx
      rw [run, value, apply, hx, List.getLast?_concat, List.dropLast_concat]
      exact kdlistPopTail_rings h hl hx
  | delete node =>
    obtain ⟨i, hi, hn⟩ := hl
    obtain ⟨⟨l, r, hlr, hnl⟩, hother⟩ := linked_split h hi hn
    refine ⟨rfl, (kdlistDelete_rings h hi hlr).of_eq (fun j hj => ?_)⟩
    by_cases hji : j = i
    · subst hji
      rw [Function.update_self]
      change (lists j).erase node = l ++ r
      rw [hlr, List.erase_append_right _ hnl, List.erase_cons_head]
    · rw [Function.update_of_ne hji]
      exact List.erase_of_not_mem (hother j hj hji)

/-! ### Whole runs -/

/-- **After every run the lists are disjoint rings of the store.** -/
theorem Run.rings (h : Run head I m lists) : Rings m I head lists := by
  induction h with
  | start m =>
    exact ⟨fun i hi => absurd hi (Set.notMem_empty i), fun i hi => absurd hi (Set.notMem_empty i)⟩
  | init _ hi hn ih => exact kdlistHeadInit_rings ih hi hn
  | op _ hl ih => exact (Op.run_rings ih hl).2

omit [DecidableEq ι] in
/-- What a traversal of a family of rings meets. -/
theorem traversals (h : Rings m I head lists) (hi : i ∈ I) {fuel : Nat}
    (hf : (lists i).length < fuel) : kdlistForEach m (head i) fuel = some (lists i) ∧
      kdlistForEachReverse m (head i) fuel = some (lists i).reverse :=
  ⟨kdlistForEach_ring (h.ring i hi) hf, kdlistForEachReverse_ring (h.ring i hi) hf⟩

/-- **The heads stand for a family of disjoint lists.**  After every run the traversal
of each list meets exactly its nodes, and the backward traversal the same in reverse;
the two neighbours of every cell point back at it; no cell is met twice, and none is on
two rings.  Every further call returns what it should, and changes the traversals of no
list but the one it works on. -/
theorem kdlist_family (head : ι → α) (I : Set ι) (m : Store α) (lists : ι → List α)
    (h : Run head I m lists) :
    (∀ i ∈ I, ∀ fuel, (lists i).length < fuel → kdlistForEach m (head i) fuel = some (lists i) ∧
      kdlistForEachReverse m (head i) fuel = some (lists i).reverse) ∧
    (∀ i ∈ I, ∀ n ∈ head i :: lists i, (m (m n).next).prev = n ∧ (m (m n).prev).next = n) ∧
    (∀ i ∈ I, (head i :: lists i).Nodup) ∧
    (∀ i ∈ I, ∀ j ∈ I, ∀ n, n ∈ head i :: lists i → n ∈ head j :: lists j → i = j) ∧
    ∀ op : Op ι α, op.Legal I head lists → (op.run head m).1 = op.value lists ∧
      ∀ j ∈ I, ¬ op.On lists j → op.apply lists j = lists j ∧
        ∀ fuel, (lists j).length < fuel →
          kdlistForEach (op.run head m).2 (head j) fuel = kdlistForEach m (head j) fuel ∧
          kdlistForEachReverse (op.run head m).2 (head j) fuel =
            kdlistForEachReverse m (head j) fuel := by
  have hr := h.rings
  refine ⟨fun i hi fuel hf => traversals hr hi hf, fun i hi n hn => (hr.ring i hi).next_prev hn,
    fun i hi => (hr.ring i hi).nodup, fun i hi j hj n hni hnj => ?_, fun op hl => ?_⟩
  · by_contra hij
    exact hr.disjoint i hi j hj hij hni hnj
  · obtain ⟨hv, hr'⟩ := op.run_rings hr hl
    refine ⟨hv, fun j hj hon => ⟨Op.apply_of_not_on hon, fun fuel hf => ?_⟩⟩
    have happ := Op.apply_of_not_on hon
    obtain ⟨h1, h2⟩ := traversals hr hj hf
    obtain ⟨h1', h2'⟩ := traversals hr' hj (by rwa [happ])
    rw [h1, h2, h1', h2', happ]
    exact ⟨rfl, rfl⟩

/-! ### Two lists -/

/-- The heads of two lists. -/
def exampleHead : Bool → Nat
  | false => 0
  | true => 1

/-- The store after `2`, and `3` behind it, are pushed to one list, and `4` to the other. -/
def exampleStore : Store Nat :=
  kdlistPushTail (kdlistPushAfter (kdlistPushTail (kdlistHeadInit (kdlistHeadInit
    (fun _ => ⟨9, 9⟩) 0) 1) 1 2) 2 3) 0 4

def exampleLists : Bool → List Nat
  | false => [4]
  | true => [2, 3]

theorem exampleStore_run : Run exampleHead Set.univ exampleStore exampleLists := by
  have hfalse : Run exampleHead (insert false ∅) (kdlistHeadInit (fun _ => ⟨9, 9⟩) 0)
      (Function.update (fun _ => []) false []) := by
    refine .init (i := false) (.start _) (Set.notMem_empty _) (fun j hj => ?_)
    exact absurd hj (Set.notMem_empty j)
  have htrue : Run exampleHead (insert true (insert false ∅)) (kdlistHeadInit (kdlistHeadInit
      (fun _ => ⟨9, 9⟩) 0) 1) (Function.update (Function.update (fun _ => []) false []) true []) := by
    refine .init (i := true) hfalse (by simp) (fun j hj => ?_)
    obtain rfl : j = false := by simpa using hj
    decide
  have hall : insert true (insert false ∅) = (Set.univ : Set Bool) := by
    ext j
    cases j <;> simp
  rw [hall] at htrue
  have hpush : (Op.pushTail true 2 : Op Bool Nat).Legal Set.univ exampleHead
      (Function.update (Function.update (fun _ => []) false []) true []) := by
    refine ⟨Set.mem_univ _, fun j _ => ?_⟩
    revert j
    decide
  have hafter : (Op.pushAfter 2 3 : Op Bool Nat).Legal Set.univ exampleHead
      ((Op.pushTail true 2).apply (Function.update (Function.update (fun _ => []) false []) true [])) := by
    refine ⟨⟨true, Set.mem_univ _, by decide⟩, fun j _ => ?_⟩
    revert j
    decide
  have hother : (Op.pushTail false 4 : Op Bool Nat).Legal Set.univ exampleHead
      ((Op.pushAfter 2 3).apply ((Op.pushTail true 2).apply
        (Function.update (Function.update (fun _ => []) false []) true []))) := by
    refine ⟨Set.mem_univ _, fun j _ => ?_⟩
    revert j
    decide
  have hlists : exampleLists = (Op.pushTail false 4).apply ((Op.pushAfter 2 3).apply
      ((Op.pushTail true 2).apply (Function.update (Function.update (fun _ => []) false []) true []))) := by
    funext j
    cases j <;> rfl
  rw [hlists]
  exact .op (.op (.op htrue hpush) hafter) hother

theorem kdlist_family_exampleStore :
    (∀ i ∈ Set.univ, ∀ fuel, (exampleLists i).length < fuel →
      kdlistForEach exampleStore (exampleHead i) fuel = some (exampleLists i) ∧
      kdlistForEachReverse exampleStore (exampleHead i) fuel = some (exampleLists i).reverse) ∧
    (∀ i ∈ Set.univ, ∀ n ∈ exampleHead i :: exampleLists i,
      (exampleStore (exampleStore n).next).prev = n ∧ (exampleStore (exampleStore n).prev).next = n) ∧
    (∀ i ∈ Set.univ, (exampleHead i :: exampleLists i).Nodup) ∧
    (∀ i ∈ Set.univ, ∀ j ∈ Set.univ, ∀ n, n ∈ exampleHead i :: exampleLists i →
      n ∈ exampleHead j :: exampleLists j → i = j) ∧
    ∀ op : Op Bool Nat, op.Legal Set.univ exampleHead exampleLists →
      (op.run exampleHead exampleStore).1 = op.value exampleLists ∧
      ∀ j ∈ Set.univ, ¬ op.On exampleLists j → op.apply exampleLists j = exampleLists j ∧
        ∀ fuel, (exampleLists j).length < fuel →
          kdlistForEach (op.run exampleHead exampleStore).2 (exampleHead j) fuel =
            kdlistForEach exampleStore (exampleHead j) fuel ∧
          kdlistForEachReverse (op.run exampleHead exampleStore).2 (exampleHead j) fuel =
            kdlistForEachReverse exampleStore (exampleHead j) fuel :=
  kdlist_family exampleHead Set.univ exampleStore exampleLists exampleStore_run

end DataStructures.Kdlist
