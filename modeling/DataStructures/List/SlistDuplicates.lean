import DataStructures.List.SlistChain
import DataStructures.Lib.Comparison
import Mathlib.Data.List.Destutter

/-!
# Duplicates in a sorted list

`slist_ordered_delete_duplicates` compares each node with the last one it has kept.  So what it
keeps of any list is `List.destutter` of it, and what it frees is `repeats`, the other nodes in
their order (`deleteDuplicatesFrom_spec`, by induction on what lies ahead of the loop).

In a sorted list a node is equal to one in front of it exactly when it is equal to the last one
kept, and therefore the first node of each class is what is kept (`mem_destutter'_iff`).
-/

namespace DataStructures.Slist

open Lib

variable {D : Type}

/-! ### The function -/

/-- The `while` loop, from `prev` and `it` on. -/
def deleteDuplicatesFrom (cmp : D → D → Int) : Nat → Heap D → Ptr → Ptr → Option (Heap D)
  | 0, _, _, _ => none
  | _ + 1, h, _, none => some h
  | rounds + 1, h, prev, some a => do
      let node ← h.mem.load (some a)
      let prevNode ← h.mem.load prev
      if cmp node.data prevNode.data = 0 then
        let h ← setNext h prev node.next
        let h ← release h (some a)
        let prevNode ← h.mem.load prev
        deleteDuplicatesFrom cmp rounds h prev prevNode.next
      else deleteDuplicatesFrom cmp rounds h (some a) node.next

/-- `slist_ordered_delete_duplicates`. -/
def slistOrderedDeleteDuplicates (cmp : D → D → Int) (h : Heap D) (head : Ptr) : Option (Heap D) := do
  if head.isNone then return h
  let node ← h.mem.load head
  if node.next.isNone then return h
  deleteDuplicatesFrom cmp h.rounds h head node.next

/-! ### What is kept and what is freed -/

/-- What the loop asks of the last node kept and the one ahead. -/
abbrev Differs (cmp : D → D → Int) (m n : Nat × D) : Prop := cmp n.2 m.2 ≠ 0

/-- The nodes that are equal to the last one kept, `e` being kept. -/
def repeats (cmp : D → D → Int) (e : Nat × D) : List (Nat × D) → List (Nat × D)
  | [] => []
  | n :: r => if cmp n.2 e.2 = 0 then n :: repeats cmp e r else repeats cmp n r

/-- A node is kept, or it is not. -/
theorem destutter_append_repeats (cmp : D → D → Int) : ∀ (r : List (Nat × D)) (e : Nat × D),
    (r.destutter' (Differs cmp) e ++ repeats cmp e r).Perm (e :: r) := by
  intro r
  induction r with
  | nil => exact fun e => .refl _
  | cons n r ih =>
    intro e
    by_cases hc : cmp n.2 e.2 = 0
    · rw [List.destutter'_cons_neg r (not_not.mpr hc), repeats, if_pos hc]
      exact List.perm_middle.trans ((ih e).cons n |>.trans (.swap e n r))
    · rw [List.destutter'_cons_pos r hc, repeats, if_neg hc]
      exact (ih n).cons e

variable {cmp : D → D → Int} {h : Heap D} {b : Nat} {e : D} {next : Ptr}

variable (cmp) in
/-- **The loop, from a kept node on**: it frees the repetitions, each with its datum, and links
what is left.  No other node changes. -/
theorem deleteDuplicatesFrom_spec : ∀ (r : List (Nat × D)) {rounds : Nat} {h : Heap D} {b : Nat}
    {e : D} {next : Ptr}, r.length < rounds → h.mem.cells b = some ⟨e, next⟩ →
    Seg h.mem.cells next r none → (addrs ((b, e) :: r)).Nodup →
    ∃ h', deleteDuplicatesFrom cmp rounds h (some b) next = some h' ∧
      Seg h'.mem.cells (some b) (r.destutter' (Differs cmp) (b, e)) none ∧
      (∀ a ∈ addrs (repeats cmp (b, e) r), h'.mem.cells a = none) ∧
      (∀ a ∉ addrs ((b, e) :: r), h'.mem.cells a = h.mem.cells a) ∧
      h'.released = h.released ++ data (repeats cmp (b, e) r) := by
  intro r
  induction r with
  | nil =>
    intro rounds h b e next hlt hb hs _
    obtain ⟨rounds, rfl⟩ := Nat.exists_eq_add_of_lt hlt
    obtain rfl : next = none := hs
    refine ⟨h, rfl, ⟨rfl, none, hb, rfl⟩, fun a ha => absurd ha List.not_mem_nil, fun a _ => rfl, ?_⟩
    rw [repeats, data, List.map_nil, List.append_nil]
  | cons n r ih =>
    intro rounds h b e next hlt hb hs hn
    obtain ⟨a, d⟩ := n
    obtain ⟨rounds, rfl⟩ : ∃ k, rounds = k + 1 := ⟨rounds - 1, by omega⟩
    have hlt' : r.length < rounds := Nat.lt_of_succ_lt_succ hlt
    obtain ⟨rfl, next', ha, hs⟩ := hs
    rw [addrs, List.map_cons, List.map_cons, List.nodup_cons, List.nodup_cons, List.mem_cons,
      not_or] at hn
    obtain ⟨⟨hba, hbr⟩, har, hr⟩ := hn
    have hload : h.mem.load (some a) = some ⟨d, next'⟩ := ha
    have hloadb : h.mem.load (some b) = some ⟨e, some a⟩ := hb
    by_cases hc : cmp d e = 0
    · -- the node is unlinked and freed, and `prev` stays
      obtain ⟨h₁, h₂, hset, hrel, hc₂, hr₂, -⟩ := unlinkNext_spec hb ha (Ne.symm hba)
      have hb₂ : h₂.mem.cells b = some ⟨e, next'⟩ := by
        rw [hc₂, Function.update_of_ne hba, Function.update_self]
      have hother : ∀ x, x ≠ a → x ≠ b → h₂.mem.cells x = h.mem.cells x := by
        intro x hxa hxb
        rw [hc₂, Function.update_of_ne hxa, Function.update_of_ne hxb]
      have hs₂ : Seg h₂.mem.cells next' r none := by
        refine hs.congr (fun x hx => hother x ?_ ?_)
        · rintro rfl
          exact har hx
        · rintro rfl
          exact hbr hx
      obtain ⟨h', hrun, hseg, hfree, hsame, hrelease⟩ :=
        ih hlt' hb₂ hs₂ (List.nodup_cons.mpr ⟨hbr, hr⟩)
      have hload₂ : h₂.mem.load (some b) = some ⟨e, next'⟩ := hb₂
      refine ⟨h', ?_, ?_, fun x hx => ?_, fun x hx => ?_, ?_⟩
      · simp [deleteDuplicatesFrom, hload, hloadb, hc, hset, hrel, hload₂, hrun]
      · rwa [List.destutter'_cons_neg r (not_not.mpr hc)]
      · rw [repeats, if_pos hc, addrs, List.map_cons, List.mem_cons] at hx
        rcases hx with hx | hx
        · rw [hx, hsame a (List.not_mem_cons_of_ne_of_not_mem (Ne.symm hba) har), hc₂,
            Function.update_self]
        · exact hfree x hx
      · simp only [List.map_cons, List.mem_cons, not_or] at hx
        rw [hsame x (List.not_mem_cons_of_ne_of_not_mem hx.1 hx.2.2), hother x hx.2.1 hx.1]
      · rw [hrelease, hr₂, repeats, if_pos hc, List.append_assoc]
        rfl
    · obtain ⟨h', hrun, hseg, hfree, hsame, hrelease⟩ :=
        ih hlt' ha hs (List.nodup_cons.mpr ⟨har, hr⟩)
      refine ⟨h', ?_, ?_, ?_, fun x hx => ?_, ?_⟩
      · simp [deleteDuplicatesFrom, hload, hloadb, hc, hrun]
      · rw [List.destutter'_cons_pos r hc]
        refine ⟨rfl, some a, ?_, hseg⟩
        rw [hsame b (List.not_mem_cons_of_ne_of_not_mem hba hbr), hb]
      · rw [repeats, if_neg hc]
        exact hfree
      · exact hsame x (fun hm => hx (List.mem_cons_of_mem _ hm))
      · rw [hrelease, repeats, if_neg hc]

/-! ### Sorted lists -/

section Sorted

variable (c : Comparison D)

/-- The data do not decrease along the nodes. -/
def Ascending (l : List (Nat × D)) : Prop := (data l).Pairwise (fun x y => c.cmp x y ≤ 0)

theorem ascending_cons {n : Nat × D} {r : List (Nat × D)} :
    Ascending c (n :: r) ↔ (∀ m ∈ r, c.cmp n.2 m.2 ≤ 0) ∧ Ascending c r := by
  rw [Ascending, data, List.map_cons, List.pairwise_cons, List.forall_mem_map]
  rfl

/-- **What is kept of a sorted list is strictly increasing.** -/
theorem sorted_destutter {l : List (Nat × D)} (hs : Ascending c l) :
    Sorted c (data (l.destutter (Differs c.cmp))) := by
  have hle : (l.destutter (Differs c.cmp)).Pairwise (fun m n => c.cmp m.2 n.2 ≤ 0) :=
    (List.pairwise_map.mp hs).sublist (List.destutter_sublist _ l)
  have hchain : (l.destutter (Differs c.cmp)).IsChain (fun m n => c.cmp m.2 n.2 < 0) := by
    refine List.isChain_iff_getElem.mpr (fun i hi => ?_)
    have hdiff := List.isChain_iff_getElem.mp (List.isChain_destutter (Differs c.cmp) l) i hi
    have hle' := List.pairwise_iff_getElem.mp hle i (i + 1) (Nat.lt_of_succ_lt hi) hi
      (Nat.lt_succ_self i)
    exact Int.lt_iff_le_and_ne.mpr ⟨hle', fun h0 => hdiff (c.eq_swap.mp h0)⟩
  have : IsTrans (Nat × D) (fun m n => c.cmp m.2 n.2 < 0) := ⟨fun _ _ _ => c.lt_trans⟩
  exact List.pairwise_map.mpr hchain.pairwise

/-- **The first of each class is kept**, and no other: by induction on the list, the head being
kept. -/
theorem mem_destutter'_iff : ∀ (r : List (Nat × D)) {e : Nat × D}, (e :: r).Nodup →
    Ascending c (e :: r) → ∀ {pre : List (Nat × D)} {x : Nat × D} {post : List (Nat × D)},
    e :: r = pre ++ x :: post →
    (x ∈ r.destutter' (Differs c.cmp) e ↔ ∀ y ∈ pre, c.cmp y.2 x.2 ≠ 0) := by
  intro r
  induction r with
  | nil =>
    intro e _ _ pre x post he
    cases pre with
    | nil =>
      obtain ⟨rfl, -⟩ := List.cons.inj he
      exact ⟨fun _ y hy => absurd hy List.not_mem_nil, fun _ => List.mem_destutter' _ _ _⟩
    | cons p pre => exact absurd (List.cons.inj he).2 (by simp)
  | cons n r ih =>
    intro e hn hs pre x post he
    cases pre with
    | nil =>
      obtain ⟨rfl, -⟩ := List.cons.inj he
      exact ⟨fun _ y hy => absurd hy List.not_mem_nil, fun _ => List.mem_destutter' _ _ _⟩
    | cons p pre =>
      obtain ⟨rfl, htail⟩ := List.cons.inj he
      obtain ⟨hen, hnr⟩ := List.nodup_cons.mp hn
      obtain ⟨hle, hs'⟩ := (ascending_cons c).mp hs
      have hx : x ∈ n :: r := by rw [htail]; simp
      by_cases hc : c.cmp n.2 e.2 = 0
      · rw [List.destutter'_cons_neg r (not_not.mpr hc)]
        have hn' : (e :: r).Nodup :=
          List.nodup_cons.mpr ⟨fun hm => hen (List.mem_cons_of_mem _ hm), (List.nodup_cons.mp hnr).2⟩
        have hs'' : Ascending c (e :: r) :=
          (ascending_cons c).mpr ⟨fun m hm => hle m (List.mem_cons_of_mem _ hm),
            ((ascending_cons c).mp hs').2⟩
        cases pre with
        | nil =>
          -- the node that is freed now
          obtain ⟨rfl, -⟩ := List.cons.inj htail
          have hno : n ∉ r.destutter' (Differs c.cmp) e := by
            intro hm
            have hmem := (List.destutter'_sublist r (Differs c.cmp) e).subset hm
            rcases List.mem_cons.mp hmem with he | hmem
            · exact hen (he ▸ List.mem_cons_self)
            · exact (List.nodup_cons.mp hnr).1 hmem
          refine ⟨fun hm => absurd hm hno, fun hall => absurd (c.eq_swap.mp hc) ?_⟩
          exact hall e List.mem_cons_self
        | cons q pre =>
          obtain ⟨rfl, hrest⟩ := List.cons.inj htail
          have hsplit : e :: r = (e :: pre) ++ x :: post := congrArg (e :: ·) hrest
          rw [ih hn' hs'' hsplit, List.forall_mem_cons,
            List.forall_mem_cons, List.forall_mem_cons]
          refine ⟨fun ⟨h1, h2⟩ => ⟨h1, fun h0 => h1 ?_, h2⟩, fun ⟨h1, _, h2⟩ => ⟨h1, h2⟩⟩
          exact c.eq_trans (c.eq_swap.mp hc) h0
      · have hlt : c.cmp e.2 n.2 < 0 := by
          have := hle n List.mem_cons_self
          have hne : c.cmp e.2 n.2 ≠ 0 := fun h0 => hc (c.eq_swap.mp h0)
          omega
        have hxe : x ≠ e := by
          rintro rfl
          exact hen hx
        have hex : c.cmp e.2 x.2 < 0 := by
          rcases List.mem_cons.mp hx with rfl | hm
          · exact hlt
          · exact c.lt_of_lt_of_le hlt (((ascending_cons c).mp hs').1 x hm)
        rw [List.destutter'_cons_pos r hc, List.mem_cons, or_iff_right hxe, ih hnr hs' htail,
          List.forall_mem_cons]
        exact ⟨fun hall => ⟨by omega, hall⟩, And.right⟩

end Sorted

/-! ### The whole list -/

variable (cmp) in
theorem slistOrderedDeleteDuplicates_spec {head : Ptr} {l : List (Nat × D)}
    (hl : Seg h.mem.cells head l none) : ∃ h' removed,
      slistOrderedDeleteDuplicates cmp h head = some h' ∧
      Seg h'.mem.cells head (l.destutter (Differs cmp)) none ∧
      (l.destutter (Differs cmp) ++ removed).Perm l ∧
      (∀ a ∈ addrs removed, h'.mem.cells a = none) ∧
      (∀ a ∉ addrs l, h'.mem.cells a = h.mem.cells a) ∧
      h'.released = h.released ++ data removed := by
  have hn := hl.nodup
  have hlt := hl.length_lt
  rcases l with - | ⟨⟨b, e⟩, r⟩
  · obtain rfl : head = none := hl
    refine ⟨h, [], rfl, rfl, .refl _, ?_, fun _ _ => rfl, (List.append_nil _).symm⟩
    exact fun a ha => absurd ha List.not_mem_nil
  · obtain ⟨rfl, next, hb, hr⟩ := hl
    have hload : h.mem.load (some b) = some ⟨e, next⟩ := hb
    have hlt' : r.length < h.rounds := Nat.lt_of_succ_lt hlt
    obtain ⟨h', hrun, hseg, hfree, hsame, hrel⟩ :=
      deleteDuplicatesFrom_spec cmp r hlt' hb hr hn
    refine ⟨h', repeats cmp (b, e) r, ?_, hseg, destutter_append_repeats cmp r (b, e), hfree, hsame,
      hrel⟩
    rw [slistOrderedDeleteDuplicates, if_neg (by simp), hload, Option.bind_eq_bind, Option.bind_some]
    cases r with
    | nil =>
      -- the list of one node is left alone before the loop
      obtain rfl : next = none := hr
      rw [Heap.rounds, deleteDuplicatesFrom] at hrun
      exact hrun
    | cons n r =>
      obtain ⟨rfl, -⟩ := hr
      exact hrun

/-- **`slist_ordered_delete_duplicates` keeps the first of each class.**  On a sorted chain that
ends in NULL it leaves a chain from the same head of some of the nodes in their order: those with
no equal node in front of them.  Their data are strictly increasing.  The other nodes are freed,
each with its datum and each once, and no freed node is read or written; no node elsewhere
changes.  If no two nodes share their datum, no datum is freed twice and none that is still held
is freed. -/
theorem slistOrderedDeleteDuplicates_exact (c : Comparison D) (h : Heap D) (head : Ptr)
    (l : List (Nat × D)) (hl : Seg h.mem.cells head l none)
    (hs : (data l).Pairwise (fun x y => c.cmp x y ≤ 0)) : ∃ h' kept removed,
      slistOrderedDeleteDuplicates c.cmp h head = some h' ∧
      Seg h'.mem.cells head kept none ∧ kept.Sublist l ∧
      (∀ pre x post, l = pre ++ x :: post → (x ∈ kept ↔ ∀ y ∈ pre, c.cmp y.2 x.2 ≠ 0)) ∧
      Sorted c (data kept) ∧ (kept ++ removed).Perm l ∧
      (∀ a ∈ addrs removed, h'.mem.cells a = none) ∧
      (∀ a ∉ addrs l, h'.mem.cells a = h.mem.cells a) ∧
      h'.released = h.released ++ data removed ∧
      ((data l).Nodup → (data removed).Nodup ∧ ∀ d ∈ data kept, d ∉ data removed) := by
  obtain ⟨h', removed, hrun, hseg, hperm, hfree, hsame, hrel⟩ :=
    slistOrderedDeleteDuplicates_spec c.cmp hl
  refine ⟨h', l.destutter (Differs c.cmp), removed, hrun, hseg, List.destutter_sublist _ l, ?_,
    sorted_destutter c hs, hperm, hfree, hsame, hrel, fun hn => ?_⟩
  · intro pre x post he
    cases l with
    | nil => exact absurd he (by simp)
    | cons e r => exact mem_destutter'_iff c r hl.nodup.of_map hs he
  · have hd : (data (l.destutter (Differs c.cmp)) ++ data removed).Nodup := by
      rw [← List.map_append]
      exact (hperm.map Prod.snd).nodup_iff.mpr hn
    exact ⟨hd.of_append_right, fun d hk hr => List.disjoint_of_nodup_append hd hk hr⟩

theorem difference_swap (a b : Int) : a - b < 0 ↔ 0 < b - a := by omega

theorem difference_trans (a b d : Int) : a - b ≤ 0 → b - d ≤ 0 → a - d ≤ 0 := by omega

/-- Two values compared as integers. -/
def intComparison : Comparison Int :=
  ⟨fun x y => x - y, difference_swap, difference_trans⟩

theorem slistOrderedDeleteDuplicates_exact_runs : ∃ h' kept removed,
    slistOrderedDeleteDuplicates intComparison.cmp (heapOf [1, 1, 2, 2]) (some 0) = some h' ∧
      Seg h'.mem.cells (some 0) kept none ∧ kept.Sublist [(0, 1), (1, 1), (2, 2), (3, 2)] ∧
      (∀ pre x post, [(0, 1), (1, 1), (2, 2), (3, 2)] = pre ++ x :: post →
        (x ∈ kept ↔ ∀ y ∈ pre, intComparison.cmp y.2 x.2 ≠ 0)) ∧
      Sorted intComparison (data kept) ∧
      (kept ++ removed).Perm [(0, 1), (1, 1), (2, 2), (3, 2)] ∧
      (∀ a ∈ addrs removed, h'.mem.cells a = none) ∧
      (∀ a ∉ addrs [(0, (1 : Int)), (1, 1), (2, 2), (3, 2)],
        h'.mem.cells a = (heapOf [(1 : Int), 1, 2, 2]).mem.cells a) ∧
      h'.released = (heapOf [(1 : Int), 1, 2, 2]).released ++ data removed ∧
      ((data [(0, (1 : Int)), (1, 1), (2, 2), (3, 2)]).Nodup →
        (data removed).Nodup ∧ ∀ d ∈ data kept, d ∉ data removed) :=
  slistOrderedDeleteDuplicates_exact intComparison _ (some 0) _
    ⟨rfl, some 1, rfl, rfl, some 2, rfl, rfl, some 3, rfl, rfl, none, rfl, rfl⟩ (by decide)

end DataStructures.Slist
