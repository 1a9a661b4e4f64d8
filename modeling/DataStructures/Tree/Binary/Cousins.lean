import DataStructures.Tree.Binary.Problems
import DataStructures.Tree.Binary.Traversal

/-!
# The search for cousins

The loop goes from level to level, and stops behind the first level, below the root's, with one of
the data.  The levels up to this one have to fit into the queue: `binaryTreeCousins_isSome`.
-/

namespace DataStructures.BinaryTree

open Lib Queue BreadthFirst LevelOrder

variable {h : Heap} {root : Ptr} {t : Tree} {a k : Nat} {n : BinaryTreeNode} {q : List Nat}
  {queue : QueueT Nat} {room rounds : Nat} {x y : Int} {parents : Ptr × Ptr}

/-! ### A level -/

/-- A parent has been found. -/
abbrev Found (parents : Ptr × Ptr) : Prop := parents.1 ≠ none ∨ parents.2 ≠ none

/-- The datum is stored at `c`. -/
abbrev Stores (h : Heap) (x : Int) (c : Nat) : Prop := ∃ m, h.cells c = some m ∧ m.data = x

/-- The parent recorded for the datum when the children `cs` of the node at `a` have been looked
at. -/
def Recorded (h : Heap) (x : Int) (a : Nat) (cs : List Nat) (p p' : Ptr) : Prop :=
  (p' = p ∧ ∀ c ∈ cs, ¬ Stores h x c) ∨ (p' = some a ∧ ∃ c ∈ cs, Stores h x c)

theorem Recorded.append {cs ds : List Nat} {p p' p'' : Ptr} (h₁ : Recorded h x a cs p p')
    (h₂ : Recorded h x a ds p' p'') : Recorded h x a (cs ++ ds) p p'' := by
  rcases h₂ with ⟨rfl, hno⟩ | ⟨rfl, c, hc, hx⟩
  · rcases h₁ with ⟨rfl, hno'⟩ | ⟨rfl, c, hc, hx⟩
    · exact Or.inl ⟨rfl, fun c hc => (List.mem_append.mp hc).elim (hno' c) (hno c)⟩
    · exact Or.inr ⟨rfl, c, List.mem_append_left _ hc, hx⟩
  · exact Or.inr ⟨rfl, c, List.mem_append_right _ hc, hx⟩

/-- The parent recorded for the datum when the nodes `ns` have been gone through: one of them with a
child that has the datum, or the one recorded before if there is none. -/
def Records (h : Heap) (x : Int) (ns : List (Nat × BinaryTreeNode)) (p p' : Ptr) : Prop :=
  (p' = p ∧ ∀ n ∈ ns, ∀ c ∈ children n.2, ¬ Stores h x c) ∨
    ∃ n ∈ ns, p' = some n.1 ∧ ∃ c ∈ children n.2, Stores h x c

theorem Records.cons {m : Nat × BinaryTreeNode} {ns : List (Nat × BinaryTreeNode)} {p p' p'' : Ptr}
    (h₂ : Records h x ns p' p'') (h₁ : Recorded h x m.1 (children m.2) p p') :
    Records h x (m :: ns) p p'' := by
  rcases h₂ with ⟨rfl, hno⟩ | ⟨n, hn, rfl, hx⟩
  · rcases h₁ with ⟨rfl, hno'⟩ | ⟨rfl, hx⟩
    · exact Or.inl ⟨rfl, List.forall_mem_cons.mpr ⟨hno', hno⟩⟩
    · exact Or.inr ⟨m, List.mem_cons_self, rfl, hx⟩
  · exact Or.inr ⟨n, List.mem_cons_of_mem _ hn, rfl, hx⟩

/-- Whether a parent is recorded. -/
theorem Records.ne_none_iff {ns : List (Nat × BinaryTreeNode)} {p p' : Ptr} (hr : Records h x ns p p') :
    p' ≠ none ↔ p ≠ none ∨ ∃ c ∈ ns.flatMap (fun n => children n.2), Stores h x c := by
  rcases hr with ⟨rfl, hno⟩ | ⟨n, hn, rfl, c, hc, hx⟩
  · refine ⟨Or.inl, fun hp => hp.resolve_right ?_⟩
    rintro ⟨c, hc, hx⟩
    obtain ⟨n, hn, hc⟩ := List.mem_flatMap.mp hc
    exact hno n hn c hc hx
  · exact ⟨fun _ => Or.inr ⟨c, List.mem_flatMap.mpr ⟨n, hn, hc⟩, hx⟩, fun _ => Option.some_ne_none _⟩

theorem cousinsChild_ok (parents : Ptr × Ptr) (hq : Holds queue q room) {child : Ptr}
    (hc : ∀ c ∈ child.toList, ∃ m, h.cells c = some m) (hroom : child.toList.length ≤ room) :
    ∃ queue' parents', cousinsChild h x y (some a) child queue parents = some (queue', parents') ∧
      Holds queue' (q ++ child.toList) (room - child.toList.length) ∧
      Recorded h x a child.toList parents.1 parents'.1 ∧
      Recorded h y a child.toList parents.2 parents'.2 := by
  obtain ⟨queue', henq, hq', -⟩ := enqueueChild_spec hq child hroom
  cases child with
  | none =>
    obtain rfl := Option.some.inj henq
    exact ⟨queue, parents, rfl, hq', Or.inl ⟨rfl, nofun⟩, Or.inl ⟨rfl, nofun⟩⟩
  | some c =>
    obtain ⟨m, hm⟩ := hc c List.mem_cons_self
    rw [enqueueChild_some _ (Option.some_ne_none c)] at henq
    have hload : h.load (some c) = some m := hm
    refine ⟨queue', (if m.data = x then some a else parents.1, if m.data = y then some a else parents.2),
      ?_, hq', ?_⟩
    · rw [cousinsChild, Option.isSome_some, if_pos rfl, hload]
      simp only [Option.bind_eq_bind, Option.bind_some, henq]
      rfl
    · have hrec : ∀ (z : Int) (p : Ptr),
          Recorded h z a (some c).toList p (if m.data = z then some a else p) := by
        intro z p
        by_cases hz : m.data = z
        · rw [if_pos hz]
          exact Or.inr ⟨rfl, c, List.mem_cons_self, m, hm, hz⟩
        · rw [if_neg hz]
          refine Or.inl ⟨rfl, fun c' hc' => ?_⟩
          obtain rfl := List.mem_singleton.mp hc'
          rintro ⟨m', hm', hz'⟩
          rw [hm, Option.some.injEq] at hm'
          exact hz (hm' ▸ hz')
      exact ⟨hrec x _, hrec y _⟩

theorem cousinsChild_full (hq : Holds queue q room) {child : Ptr}
    (hc : ∀ c ∈ child.toList, ∃ m, h.cells c = some m) (hroom : room < child.toList.length) :
    cousinsChild h x y (some a) child queue parents = none := by
  have henq := enqueueChild_full hq hroom
  cases child with
  | none => cases henq
  | some c =>
    obtain ⟨m, hm⟩ := hc c List.mem_cons_self
    rw [enqueueChild_some _ (Option.some_ne_none c)] at henq
    have hload : h.load (some c) = some m := hm
    rw [cousinsChild, Option.isSome_some, if_pos rfl, hload]
    simp only [Option.bind_eq_bind, Option.bind_some, henq]
    rfl

/-- The first node of a level. -/
theorem cousinsLevel_succ (parents : Ptr × Ptr) (hn : h.cells a = some n)
    (hc : ∀ c ∈ children n, ∃ m, h.cells c = some m) (hq : Holds queue (a :: q) room) (size : Nat) :
    ((children n).length ≤ room → ∃ queue' parents', cousinsLevel h x y (size + 1) queue parents =
        cousinsLevel h x y size queue' parents' ∧
      Holds queue' (q ++ children n) (room - (children n).length) ∧
      Recorded h x a (children n) parents.1 parents'.1 ∧
      Recorded h y a (children n) parents.2 parents'.2) ∧
    (room < (children n).length → cousinsLevel h x y (size + 1) queue parents = none) := by
  obtain ⟨queue', hdeq, hq', -⟩ := hq.dequeue
  have hload : h.load (some a) = some n := hn
  rw [children, List.length_append, cousinsLevel, hdeq]
  simp only [Option.bind_eq_bind, Option.bind_some, hload]
  have hcl : ∀ c ∈ n.left.toList, ∃ m, h.cells c = some m := fun c hm =>
    hc c (List.mem_append_left _ hm)
  have hcr : ∀ c ∈ n.right.toList, ∃ m, h.cells c = some m := fun c hm =>
    hc c (List.mem_append_right _ hm)
  by_cases hleft : n.left.toList.length ≤ room
  · obtain ⟨queue₁, parents₁, hr₁, hq₁, hx₁, hy₁⟩ :=
      cousinsChild_ok (x := x) (y := y) (a := a) parents hq' hcl hleft
    rw [hr₁, Option.bind_some]
    refine ⟨fun hle => ?_, fun hlt => ?_⟩
    · obtain ⟨queue₂, parents₂, hr₂, hq₂, hx₂, hy₂⟩ :=
        cousinsChild_ok (x := x) (y := y) (a := a) parents₁ hq₁ hcr (by omega)
      refine ⟨queue₂, parents₂, by rw [hr₂]; rfl, ?_, hx₁.append hx₂, hy₁.append hy₂⟩
      rwa [← List.append_assoc, ← Nat.sub_sub]
    · rw [cousinsChild_full hq₁ hcr (by omega)]
      rfl
  · rw [cousinsChild_full hq' hcl (Nat.lt_of_not_le hleft)]
    exact ⟨fun hle => absurd hle (by omega), fun _ => rfl⟩

/-- **A level is replaced by the next one**, in which the data have been looked for. -/
theorem cousinsLevel_spec (parents : Ptr × Ptr) {ns : List (Nat × BinaryTreeNode)}
    (hl : ∀ n ∈ ns, h.cells n.1 = some n.2)
    (hc : ∀ c ∈ ns.flatMap (fun n => children n.2), ∃ m, h.cells c = some m)
    (hq : Holds queue (ns.map Prod.fst ++ q) room) :
    ((ns.flatMap (fun n => children n.2)).length ≤ room → ∃ queue' parents',
      cousinsLevel h x y ns.length queue parents = some (queue', parents') ∧
      Holds queue' (q ++ ns.flatMap (fun n => children n.2))
        (room - (ns.flatMap (fun n => children n.2)).length) ∧
      Records h x ns parents.1 parents'.1 ∧ Records h y ns parents.2 parents'.2) ∧
    (room < (ns.flatMap (fun n => children n.2)).length →
      cousinsLevel h x y ns.length queue parents = none) := by
  induction ns generalizing queue q room parents with
  | nil =>
    refine ⟨fun _ => ⟨queue, parents, rfl, ?_, Or.inl ⟨rfl, nofun⟩, Or.inl ⟨rfl, nofun⟩⟩,
      fun hn => absurd hn (Nat.not_lt_zero _)⟩
    rwa [List.flatMap_nil, List.append_nil]
  | cons n ns ih =>
    rw [List.flatMap_cons] at hc ⊢
    rw [List.map_cons, List.cons_append] at hq
    obtain ⟨hfit, hfull⟩ := cousinsLevel_succ (x := x) (y := y) parents
      (hl n List.mem_cons_self) (fun c hm => hc c (List.mem_append_left _ hm)) hq ns.length
    rw [List.length_append, List.length_cons]
    by_cases hroom : (children n.2).length ≤ room
    · obtain ⟨queue₁, parents₁, hr₁, hq₁, hx₁, hy₁⟩ := hfit hroom
      rw [List.append_assoc] at hq₁
      obtain ⟨hfit', hfull'⟩ := ih parents₁ (fun m hm => hl m (List.mem_cons_of_mem _ hm))
        (fun c hm => hc c (List.mem_append_right _ hm)) hq₁
      rw [hr₁, ← Nat.sub_sub, ← List.append_assoc]
      refine ⟨fun hle => ?_, fun hlt => hfull' (by omega)⟩
      obtain ⟨queue₂, parents₂, hr₂, hq₂, hx₂, hy₂⟩ := hfit' (by omega)
      exact ⟨queue₂, parents₂, hr₂, hq₂, hx₂.cons hx₁, hy₂.cons hy₁⟩
    · rw [hfull (Nat.lt_of_not_le hroom)]
      exact ⟨fun hle => absurd hle (by omega), fun _ => rfl⟩

/-! ### The levels -/

/-- Neither datum is on the level. -/
abbrev Absent (x y : Int) (ns : List (Nat × BinaryTreeNode)) : Prop :=
  ∀ m ∈ ns, m.2.data ≠ x ∧ m.2.data ≠ y

/-- The nodes on the levels behind `k` up to `j`. -/
abbrev levelsTo (nodes : BinaryTree (Nat × BinaryTreeNode)) (k j : Nat) : List (Nat × BinaryTreeNode) :=
  (List.range' (k + 1) (j - k)).flatMap (level nodes)

variable {nodes : BinaryTree (Nat × BinaryTreeNode)}

theorem levelsTo_succ {j : Nat} (hj : k < j) :
    (levelsTo nodes k j).length = (level nodes (k + 1)).length + (levelsTo nodes (k + 1) j).length := by
  obtain ⟨d, hd⟩ : ∃ d, j - k = d + 1 := ⟨j - k - 1, by omega⟩
  rw [levelsTo, hd, List.range'_succ, List.flatMap_cons, List.length_append, levelsTo,
    show j - (k + 1) = d by omega]

theorem levelsTo_of_le {j : Nat} (hj : j ≤ k) : (levelsTo nodes k j).length = 0 := by
  rw [levelsTo, Nat.sub_eq_zero_of_le hj]
  rfl

/-- The data of the next level are those of the children. -/
theorem exists_stores_iff (hl : Linked h.cells children nodes) (k : Nat) :
    (∃ c ∈ (level nodes k).flatMap (fun n => children n.2), Stores h x c) ↔
      ∃ m ∈ level nodes (k + 1), m.2.data = x := by
  rw [hl.level_succ]
  constructor
  · rintro ⟨c, hc, m', hm', hx⟩
    obtain ⟨m, hm, rfl⟩ := List.mem_map.mp hc
    rw [hl.load_eq (mem_of_level hm), Option.some.injEq] at hm'
    exact ⟨m, hm, hm' ▸ hx⟩
  · rintro ⟨m, hm, hx⟩
    exact ⟨m.1, List.mem_map_of_mem hm, m.2, hl.load_eq (mem_of_level hm), hx⟩

/-- **Something is found exactly if the next level has one of the data.** -/
theorem found_iff (hl : Linked h.cells children nodes) (k : Nat) {parents : Ptr × Ptr}
    (hx : Records h x (level nodes k) none parents.1) (hy : Records h y (level nodes k) none parents.2) :
    Found parents ↔ ¬ Absent x y (level nodes (k + 1)) := by
  have hnone : ∀ {P : Prop}, (none : Ptr) ≠ none ∨ P ↔ P := or_iff_right (fun hne => hne rfl)
  rw [Found, hx.ne_none_iff, hy.ne_none_iff, hnone, hnone, exists_stores_iff hl, exists_stores_iff hl]
  constructor
  · rintro (⟨m, hm, he⟩ | ⟨m, hm, he⟩) habs
    · exact (habs m hm).1 he
    · exact (habs m hm).2 he
  · intro hnot
    by_contra hno
    rw [not_or] at hno
    exact hnot (fun m hm => ⟨fun he => hno.1 ⟨m, hm, he⟩, fun he => hno.2 ⟨m, hm, he⟩⟩)

/-- What the loop still puts into the queue behind level `k` fits into `room` slots: the levels up to
the first one with one of the data. -/
abbrev Fits (x y : Int) (nodes : BinaryTree (Nat × BinaryTreeNode)) (k room : Nat) : Prop :=
  ∀ j, (∀ i, k < i → i < j → Absent x y (level nodes i)) → (levelsTo nodes k j).length ≤ room

theorem fits_of_eq_nil (hnil : level nodes k = []) : Fits x y nodes k room := by
  intro j _
  have hall : levelsTo nodes k j = [] := by
    rw [levelsTo, List.flatMap_eq_nil_iff]
    intro i hi
    have hki := (List.mem_range'_1.mp hi).1
    exact level_eq_nil_of_le hnil (by omega)
  rw [hall]
  exact Nat.zero_le _

/-- Nothing is found on the next level. -/
theorem fits_of_absent (habs : Absent x y (level nodes (k + 1)))
    (hroom : (level nodes (k + 1)).length ≤ room) :
    Fits x y nodes (k + 1) (room - (level nodes (k + 1)).length) ↔ Fits x y nodes k room := by
  refine ⟨fun hall j hj => ?_, fun hall j hj => ?_⟩
  · rcases Nat.lt_or_ge k j with hkj | hjk
    · have hle := hall j (fun i hi => hj i (by omega))
      rw [levelsTo_succ hkj]
      omega
    · rw [levelsTo_of_le hjk]
      exact Nat.zero_le _
  · rcases Nat.lt_or_ge (k + 1) j with hkj | hjk
    · have hle := hall j (fun i hi hij => by
        rcases Nat.lt_or_ge (k + 1) i with hlt | hle
        · exact hj i hlt hij
        · obtain rfl : i = k + 1 := by omega
          exact habs)
      rw [levelsTo_succ (by omega)] at hle
      omega
    · rw [levelsTo_of_le hjk]
      exact Nat.zero_le _

/-- Something is found on the next level. -/
theorem fits_of_not_absent (habs : ¬ Absent x y (level nodes (k + 1)))
    (hroom : (level nodes (k + 1)).length ≤ room) : Fits x y nodes k room := by
  intro j hj
  rcases Nat.lt_or_ge k j with hkj | hjk
  · have hjk : j = k + 1 := by
      by_contra hne
      exact habs (hj (k + 1) (Nat.lt_succ_self k) (by omega))
    rw [levelsTo_succ hkj, levelsTo_of_le (Nat.le_of_eq hjk)]
    exact hroom
  · rw [levelsTo_of_le hjk]
    exact Nat.zero_le _

theorem Fits.next_le (h : Fits x y nodes k room) : (level nodes (k + 1)).length ≤ room := by
  have hle := h (k + 1) (fun i hi hij => by omega)
  rwa [levelsTo_succ (Nat.lt_succ_self k), levelsTo_of_le (Nat.le_refl _)] at hle

/-- **One round of the loop**, at a level that is not empty: with one of the data on the next level
the loop stops there, and otherwise the next level is in the queue. -/
theorem cousinsLoop_succ (hl : Linked h.cells children nodes)
    (hq : Holds queue ((level nodes k).map Prod.fst) room) (hne : level nodes k ≠ []) (rounds : Nat) :
    ((level nodes (k + 1)).length ≤ room → ∃ queue' parents',
      Holds queue' ((level nodes (k + 1)).map Prod.fst) (room - (level nodes (k + 1)).length) ∧
      Records h x (level nodes k) none parents'.1 ∧ Records h y (level nodes k) none parents'.2 ∧
      (Absent x y (level nodes (k + 1)) → cousinsLoop h x y (rounds + 1) queue (none, none) =
        cousinsLoop h x y rounds queue' (none, none)) ∧
      (¬ Absent x y (level nodes (k + 1)) →
        cousinsLoop h x y (rounds + 1) queue (none, none) = some parents')) ∧
    (room < (level nodes (k + 1)).length →
      cousinsLoop h x y (rounds + 1) queue (none, none) = none) := by
  have hempty : ((level nodes k).map Prod.fst).isEmpty = false := by simpa using hne
  have hchildren := hl.level_succ k
  have hlen : ((level nodes k).flatMap (fun n => children n.2)).length =
      (level nodes (k + 1)).length := by rw [hchildren, List.length_map]
  have hload : ∀ n ∈ level nodes k, h.cells n.1 = some n.2 := fun n hn =>
    hl.load_eq (mem_of_level hn)
  have hc : ∀ c ∈ (level nodes k).flatMap (fun n => children n.2), ∃ m, h.cells c = some m := by
    intro c hc
    rw [hchildren] at hc
    obtain ⟨m, hm, rfl⟩ := List.mem_map.mp hc
    exact ⟨m.2, hl.load_eq (mem_of_level hm)⟩
  have hsize : queueSize queue = (level nodes k).length := by rw [hq.size_eq, List.length_map]
  rw [cousinsLoop, hq.isEmpty, hempty, if_neg Bool.false_ne_true, hsize]
  rw [← List.append_nil ((level nodes k).map Prod.fst)] at hq
  obtain ⟨hfit, hfull⟩ := cousinsLevel_spec (x := x) (y := y) (none, none) hload hc hq
  rw [hlen] at hfit hfull
  refine ⟨fun hroom => ?_, fun hroom => by rw [hfull hroom]; rfl⟩
  obtain ⟨queue', parents', hrun, hq', hrx, hry⟩ := hfit hroom
  rw [List.nil_append, hchildren] at hq'
  have hfound := found_iff hl k hrx hry
  refine ⟨queue', parents', hq', hrx, hry, fun habs => ?_, fun habs => ?_⟩
  · have hnone : parents' = (none, none) := by
      rw [← not_iff_not, not_not, not_or, not_not, not_not] at hfound
      exact Prod.ext (hfound.mpr habs).1 (hfound.mpr habs).2
    rw [hrun, hnone]
    rfl
  · have hsome : (parents'.1.isSome || parents'.2.isSome) = true := by
      rw [Bool.or_eq_true, Option.isSome_iff_ne_none, Option.isSome_iff_ne_none]
      exact hfound.mpr habs
    rw [hrun]
    exact if_pos hsome

/-- There is nothing left at an empty level. -/
theorem cousinsLoop_nil (hq : Holds queue ((level nodes k).map Prod.fst) room)
    (hnil : level nodes k = []) (rounds : Nat) (parents : Ptr × Ptr) :
    cousinsLoop h x y (rounds + 1) queue parents = some parents := by
  rw [cousinsLoop, hq.isEmpty, hnil]
  rfl

/-- **The loop stops behind the first level with one of the data**; the levels up to it have to
fit. -/
theorem cousinsLoop_spec (hl : Linked h.cells children nodes)
    (hq : Holds queue ((level nodes k).map Prod.fst) room)
    (hr : (level nodes k).length + room < rounds) :
    (cousinsLoop h x y rounds queue (none, none)).isSome ↔ Fits x y nodes k room := by
  induction rounds generalizing k queue room with
  | zero => exact absurd hr (Nat.not_lt_zero _)
  | succ rounds ih =>
    by_cases hnil : level nodes k = []
    · rw [cousinsLoop_nil hq hnil]
      exact ⟨fun _ => fits_of_eq_nil hnil, fun _ => rfl⟩
    · have hpos := List.length_pos_iff.mpr hnil
      obtain ⟨hfit, hfull⟩ := cousinsLoop_succ (x := x) (y := y) hl hq hnil rounds
      by_cases hroom : (level nodes (k + 1)).length ≤ room
      · obtain ⟨queue', parents', hq', -, -, hgo, hstop⟩ := hfit hroom
        by_cases habs : Absent x y (level nodes (k + 1))
        · rw [hgo habs]
          exact (ih hq' (by omega)).trans (fits_of_absent habs hroom)
        · rw [hstop habs]
          exact ⟨fun _ => fits_of_not_absent habs hroom, fun _ => rfl⟩
      · rw [hfull (Nat.lt_of_not_le hroom)]
        exact ⟨fun h => absurd h Bool.false_ne_true, fun hall => absurd hall.next_le hroom⟩

/-- **What the loop has found when it stops**: no level behind level `k` up to some level `j` has
one of the data, the parents are those recorded on level `j`, and level `j + 1` has one of the
data unless there is no level left. -/
theorem cousinsLoop_result (hl : Linked h.cells children nodes)
    (hq : Holds queue ((level nodes k).map Prod.fst) room)
    (hrun : cousinsLoop h x y rounds queue (none, none) = some parents) :
    ∃ j, k ≤ j ∧ (∀ i, k < i → i ≤ j → Absent x y (level nodes i)) ∧
      Records h x (level nodes j) none parents.1 ∧ Records h y (level nodes j) none parents.2 ∧
      (Absent x y (level nodes (j + 1)) → level nodes j = []) := by
  induction rounds generalizing k queue room with
  | zero => cases hrun
  | succ rounds ih =>
    have hnone : ∀ i, k < i → i ≤ k → Absent x y (level nodes i) := fun i hi hik =>
      absurd hi (Nat.not_lt.mpr hik)
    by_cases hnil : level nodes k = []
    · rw [cousinsLoop_nil hq hnil, Option.some.injEq] at hrun
      rw [← hrun]
      refine ⟨k, Nat.le_refl k, hnone, Or.inl ⟨rfl, ?_⟩, Or.inl ⟨rfl, ?_⟩, fun _ => hnil⟩
      · rw [hnil]; exact nofun
      · rw [hnil]; exact nofun
    · obtain ⟨hfit, hfull⟩ := cousinsLoop_succ (x := x) (y := y) hl hq hnil rounds
      by_cases hroom : (level nodes (k + 1)).length ≤ room
      · obtain ⟨queue', parents', hq', hrx, hry, hgo, hstop⟩ := hfit hroom
        by_cases habs : Absent x y (level nodes (k + 1))
        · rw [hgo habs] at hrun
          obtain ⟨j, hkj, hall, hres⟩ := ih hq' hrun
          refine ⟨j, by omega, fun i hi hij => ?_, hres⟩
          by_cases hik : i = k + 1
          · rw [hik]; exact habs
          · exact hall i (by omega) hij
        · rw [hstop habs, Option.some.injEq] at hrun
          rw [← hrun]
          exact ⟨k, Nat.le_refl k, hnone, hrx, hry, fun h => absurd h habs⟩
      · rw [hfull (Nat.lt_of_not_le hroom)] at hrun
        cases hrun

theorem level_stored_data (t : Tree) (k : Nat) :
    (level (stored t) k).map (fun m => m.2.data) = (level t k).map Prod.snd := by
  rw [← level_map, map_data_stored, level_map]

theorem absent_stored_iff (k : Nat) :
    Absent x y (level (stored t) k) ↔ ∀ n ∈ level t k, n.2 ≠ x ∧ n.2 ≠ y := by
  have hstored := List.forall_mem_map (l := level (stored t) k) (f := fun m => m.2.data)
    (P := fun v => v ≠ x ∧ v ≠ y)
  rw [level_stored_data, List.forall_mem_map] at hstored
  exact hstored.symm

theorem length_levelsTo (t : Tree) (j : Nat) :
    (levelsTo (stored t) 0 j).length = ((List.range' 1 j).flatMap (level t)).length := by
  rw [levelsTo, Nat.sub_zero, List.length_flatMap, List.length_flatMap]
  refine congrArg List.sum (List.map_congr_left fun i _ => ?_)
  rw [← List.length_map (f := fun m => m.2.data), level_stored_data, List.length_map]

/-- The levels up to `j`, the root's counted. -/
theorem length_levels_eq (ht : t ≠ .nil) (j : Nat) :
    ((List.range (j + 1)).flatMap (level t)).length = (levelsTo (stored t) 0 j).length + 1 := by
  have hone : (level t 0).length = 1 := by
    cases t with
    | nil => exact absurd rfl ht
    | node n l r => rfl
  rw [length_levelsTo, List.range_eq_range', List.range'_succ, List.flatMap_cons,
    List.length_append, hone, Nat.add_comm]

/-- Ahead of the loop the root is in the queue, in the first of its slots. -/
theorem cousins_start (hs : Spans h root t) (ht : t ≠ .nil) (ho : h.outcomes.Succeed 2) (x y : Int) :
    ∃ h' queue rounds, Spans h' root t ∧ Holds queue ((level (stored t) 0).map Prod.fst) 127 ∧
      (level (stored t) 0).length + 127 < rounds ∧
      binaryTreeCousins h root x y = (cousinsLoop h' x y rounds queue (none, none)).map
        (fun parents => parents.1.isSome && parents.2.isSome && parents.1 ≠ parents.2) := by
  obtain ⟨r, hroot⟩ := Option.ne_none_iff_exists'.mp (mt ptr_eq_none.mp ht)
  obtain rfl := hs.root.trans hroot
  have hzero : (level (stored t) 0).map Prod.fst = [r] := by
    rw [level_zero, roots_stored, hroot]
    rfl
  have hone : (level (stored t) 0).length = 1 := by
    rw [← List.length_map (f := Prod.fst), hzero]
    rfl
  obtain ⟨queue, hcreate, hempty, hqsize⟩ := createQueue_of ho
  obtain ⟨queue', henq, hq, hqsize'⟩ := enqueue_root queue hempty hqsize r
  rw [← hzero] at hq
  refine ⟨{ h with outcomes := h.outcomes.later 2 }, queue', queue'.size + 1,
    ⟨hs.root, hs.node, hs.nodup⟩, hq, by rw [hone, hqsize']; exact Nat.lt_succ_self 128, ?_⟩
  rw [binaryTreeCousins, Option.isNone_some, if_neg Bool.false_ne_true, hcreate]
  simp only [Option.bind_eq_bind, Option.bind_some, henq]
  exact Option.map_eq_bind.symm

/-- **The search completes** if the levels fit into the queue up to the first one with one of the
data, the root's not counted. -/
theorem binaryTreeCousins_isSome (hs : Spans h root t) (ho : h.outcomes = .allOk) (x y : Int) :
    (binaryTreeCousins h root x y).isSome ↔
      ∀ j, (∀ i, 0 < i → i < j → ∀ n ∈ level t i, n.2 ≠ x ∧ n.2 ≠ y) →
        ((List.range (j + 1)).flatMap (level t)).length ≤ 128 := by
  rcases eq_or_ne t .nil with rfl | ht
  · rw [hs.root]
    refine ⟨fun _ j _ => ?_, fun _ => rfl⟩
    exact (length_levels_le _ _).trans (Nat.zero_le 128)
  · obtain ⟨h', queue, rounds, hs', hq, hr, hrun⟩ :=
      cousins_start hs ht (ho ▸ Outcomes.succeed_allOk 2) x y
    rw [hrun, Option.isSome_map, cousinsLoop_spec (linked_stored hs'.node) hq hr]
    refine forall_congr' fun j => ?_
    rw [length_levels_eq ht]
    simp only [absent_stored_iff]
    exact imp_congr_right fun _ => by omega

end DataStructures.BinaryTree
