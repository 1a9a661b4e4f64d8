import DataStructures.Allocator.Buddy.Invariant

/-!
# `buddy_init` and `__blk_alloc`

`buddyInit_rep`: the fresh allocator holds one free block, the whole arena.

`__blk_alloc` splits the smallest block that is large enough, one order at a
time, restarting its search each time.  `blkAlloc_descend` follows the first half
from order `order + d` down to `order`, by induction on `d`: the lists in between
are empty, so the next round splits that half again and the last one takes it.
On the way the only free buddies are the two halves of the last split.

`blkAlloc_spec` puts the two outcomes together: a block of the requested order
that met no live block, or NULL with every list from that order on empty, and
nothing changed.  `exists_overlap_of_empty` says what the second one means.
-/

namespace DataStructures.Buddy

open Lib Kdlist Block

variable {ar : Arena} {bud : BuddyT} {L : Nat → List Nat} {A : Set Block}

/-! ### The fresh allocator -/

/-- The lists of the fresh allocator. -/
def initLists : Nat → List Nat := Function.update (fun _ => []) buddyOrders [0]

theorem freeSet_initLists : freeSet initLists = {⟨buddyOrders, 0⟩} := by
  have h := freeSet_append (L := fun _ => []) (b := ⟨buddyOrders, 0⟩) le_rfl
  have he : freeSet (fun _ => []) = ∅ := by
    ext b; simp [freeSet]
  rw [he] at h
  simpa [initLists] using h

/-- Initialising heads one after the other leaves those already done alone. -/
theorem foldl_headInit (ar : Arena) : ∀ (n : Nat) (m : Store Addr), n ≤ buddyOrders + 1 →
    ∀ k, k < n → Ring ((List.range n).foldl (fun m i => kdlistHeadInit m (ar.head i)) m)
      (ar.head k) [] := by
  intro n
  induction n with
  | zero => intro _ _ k hk; omega
  | succ n ih =>
    intro m hn k hk
    rw [List.range_succ, List.foldl_append, List.foldl_cons, List.foldl_nil]
    by_cases hkn : k = n
    · subst hkn
      exact kdlistHeadInit_ring _ _
    · refine (ih m (by omega) k (by omega)).congr (fun x hx => ?_)
      obtain rfl : x = ar.head k := by simpa using hx
      have hne : ar.head k ≠ ar.head n := fun he => hkn (ar.head_inj (by omega) (by omega) he)
      rw [kdlistHeadInit, setPrev_of_ne _ hne, setNext_of_ne _ hne]

theorem linked_empty (ar : Arena) (m : Store Addr) :
    Linked ar ((List.range (buddyOrders + 1)).foldl (fun m i => kdlistHeadInit m (ar.head i)) m)
      (fun _ => []) := by
  refine ⟨?_, ?_⟩
  · intro k hk
    have hk' : k ≤ buddyOrders := hk
    exact foldl_headInit ar _ m le_rfl k (by omega)
  · intro j hj k hk hne x hx hx'
    simp only [List.map_nil, List.mem_singleton] at hx hx'
    exact hne (ar.head_inj hj hk (hx ▸ hx'))

/-- **`buddy_init` makes one free block of the whole arena.** -/
theorem buddyInit_rep (ar : Arena) (m : Store Addr)
    (h : buddyInit (some ar.addr) (some ar.mem) m = some bud) :
    Rep ar bud initLists ∅ := by
  rw [buddyInit, Option.some.injEq] at h
  subst h
  have hw : (⟨buddyOrders, 0⟩ : Block).Within buddyOrders := ⟨le_rfl, by simp⟩
  have hpush := (linked_empty ar m).push (b := ⟨buddyOrders, 0⟩) (by simp [freeSet]) hw
    (by simp [freeSet])
  have hblk : ar.block ⟨buddyOrders, 0⟩ = pagePtrAlign ar.mem := by
    rw [Arena.block, Block.start, Nat.zero_mul, ar.page_zero]; rfl
  rw [hblk] at hpush
  refine ⟨rfl, rfl, hpush, ?_, Set.disjoint_empty _, by simp⟩
  rw [freeSet_initLists, Set.union_empty]
  exact Tiles.top _

theorem coalesced_initLists : Coalesced buddyOrders (freeSet initLists) := by
  rw [freeSet_initLists]
  exact Tiles.coalesced_top _

/-! ### One split -/

theorem blkAllocSplit_nil (h : Rep ar bud L A) : ∀ (is : List Nat),
    (∀ i ∈ is, i ≤ buddyOrders ∧ L i = []) → blkAllocSplit bud is = (false, bud) := by
  intro is
  induction is with
  | nil => intro _; rfl
  | cons i is ih =>
    intro hi
    obtain ⟨hle, hnil⟩ := hi i (by simp)
    rw [blkAllocSplit, h.freeList_eq, if_pos ((h.linked.isEmpty_iff hle).mpr hnil)]
    exact ih (fun j hj => hi j (by simp [hj]))

/-- The lists after the first block of order `k + 1` was split. -/
def splitLists (L : Nat → List Nat) (k j : Nat) (js : List Nat) : Nat → List Nat :=
  Function.update (Function.update L (k + 1) js) k (L k ++ [2 * j, 2 * j + 1])

theorem freeSet_splitLists {k j : Nat} {js : List Nat} (hk : k + 1 ≤ buddyOrders)
    (hL : L (k + 1) = j :: js) (hn : (L (k + 1)).Nodup) :
    freeSet (splitLists L k j js) =
      insert ⟨k, 2 * j + 1⟩ (insert ⟨k, 2 * j⟩ (freeSet L \ {⟨k + 1, j⟩})) := by
  have h1 := freeSet_erase (b := ⟨k + 1, j⟩) (l := []) (r := js) hL hn
  have h2 := freeSet_append (L := Function.update L (k + 1) js) (b := ⟨k, 2 * j⟩)
    (show k ≤ buddyOrders by omega)
  have h3 := freeSet_append
    (L := Function.update (Function.update L (k + 1) js) k (L k ++ [2 * j])) (b := ⟨k, 2 * j + 1⟩)
    (show k ≤ buddyOrders by omega)
  simp only [List.nil_append] at h1
  simp only [Function.update_of_ne (show k ≠ k + 1 by omega)] at h2
  rw [h1] at h2
  rw [h2] at h3
  rw [← h3, splitLists]
  simp

/-- Pop a block, push its two halves: the three list operations of one split. -/
theorem Linked.split {m : Store Addr} {k j : Nat} {js : List Nat} (h : Linked ar m L)
    (ht : Tiles buddyOrders (freeSet L ∪ A)) (hk : k + 1 ≤ buddyOrders) (hL : L (k + 1) = j :: js) :
    Linked ar (kdlistPushTail (kdlistPushTail (kdlistPopHead m (ar.head (k + 1))).2 (ar.head k)
      (ar.block ⟨k, 2 * j⟩)) (ar.head k) (ar.block ⟨k, 2 * j + 1⟩)) (splitLists L k j js) := by
  have hp : (⟨k + 1, j⟩ : Block) ∈ freeSet L := ⟨hk, by rw [hL]; simp⟩
  have hpar : (⟨k, 2 * j⟩ : Block).parent = ⟨k + 1, j⟩ := by simp [parent]
  have hpar' : (⟨k, 2 * j + 1⟩ : Block).parent = ⟨k + 1, j⟩ := by
    simp only [parent, Block.mk.injEq, true_and]; omega
  have hwp := ht.within _ (Or.inl hp)
  have hw1 : (⟨k, 2 * j⟩ : Block).Within buddyOrders := within_of_parent (hpar ▸ hwp)
  have hw2 : (⟨k, 2 * j + 1⟩ : Block).Within buddyOrders := within_of_parent (hpar' ▸ hwp)
  have hF1 := freeSet_erase (b := ⟨k + 1, j⟩) (l := []) (r := js) hL (h.nodup hk)
  have hF2 := freeSet_append (L := Function.update L (k + 1) js) (b := ⟨k, 2 * j⟩) hw1.1
  simp only [List.nil_append] at hF1
  -- what is still free meets neither half
  have hoff : ∀ f ∈ freeSet (Function.update L (k + 1) js), f.Within buddyOrders ∧
      ∀ c : Block, c.parent = ⟨k + 1, j⟩ → ¬ f.Overlap c := by
    intro f hf
    rw [hF1] at hf
    refine ⟨ht.within f (Or.inl hf.1), fun c hc hov => hf.2 ?_⟩
    have : (⟨k + 1, j⟩ : Block).Overlap f := hc ▸ parent_overlap_iff.mpr (Or.inl hov.symm)
    exact (ht.unique _ (Or.inl hp) f (Or.inl hf.1) this).symm
  have hl2 := (h.pop hk hL).2.push (fun f hf => (hoff f hf).1) hw1 (fun f hf => (hoff f hf).2 _ hpar)
  have hl3 := hl2.push (b := ⟨k, 2 * j + 1⟩)
    (by
      rw [hF2]
      rintro f (rfl | hf)
      · exact hw1
      · exact (hoff f hf).1)
    hw2
    (by
      rw [hF2]
      rintro f (rfl | hf)
      · exact fun hov => absurd (eq_of_overlap hov rfl) (by simp)
      · exact (hoff f hf).2 _ hpar')
  simpa [splitLists, Function.update_of_ne (show k ≠ k + 1 by omega)] using hl3

/-- **The split loop splits the first block of the first order it finds.** -/
theorem blkAllocSplit_cons (h : Rep ar bud L A) {k j : Nat} {js post : List Nat}
    (hk : k + 1 ≤ buddyOrders) (hL : L (k + 1) = j :: js) : ∀ (pre : List Nat),
    (∀ i ∈ pre, i ≤ buddyOrders ∧ L i = []) →
    ∃ bud', blkAllocSplit bud (pre ++ (k + 1) :: post) = (true, bud') ∧
      Rep ar bud' (splitLists L k j js) A := by
  intro pre
  induction pre with
  | cons i pre ih =>
    intro hi
    obtain ⟨hle, hnil⟩ := hi i (by simp)
    rw [List.cons_append, blkAllocSplit, h.freeList_eq,
      if_pos ((h.linked.isEmpty_iff hle).mpr hnil)]
    exact ih (fun i hi' => hi i (by simp [hi']))
  | nil =>
    intro _
    have hp : (⟨k + 1, j⟩ : Block) ∈ freeSet L := ⟨hk, by rw [hL]; simp⟩
    have hpar : (⟨k, 2 * j⟩ : Block).parent = ⟨k + 1, j⟩ := by simp [parent]
    have hbud : (⟨k, 2 * j⟩ : Block).buddy = ⟨k, 2 * j + 1⟩ := by simp [buddy]
    have hw1 : (⟨k, 2 * j⟩ : Block).Within buddyOrders :=
      within_of_parent (hpar ▸ h.within_free hp)
    have hfree := freeSet_splitLists hk hL (h.linked.nodup hk)
    have hpA : (⟨k + 1, j⟩ : Block) ∉ A := fun hA => Set.disjoint_left.mp h.disjoint hp hA
    have htile := h.tiles.split (b := ⟨k, 2 * j⟩) (by rw [hpar]; exact Or.inl hp)
    have hset : freeSet (splitLists L k j js) ∪ A = insert (⟨k, 2 * j⟩ : Block)
        (insert (⟨k, 2 * j⟩ : Block).buddy ((freeSet L ∪ A) \ {(⟨k, 2 * j⟩ : Block).parent})) := by
      rw [hfree, hpar, hbud]
      ext c
      simp only [Set.mem_union, Set.mem_insert_iff, Set.mem_sdiff, Set.mem_singleton_iff]
      by_cases hc : c = ⟨k + 1, j⟩
      · subst hc; simp [hpA]
      · tauto
    have haddr : blk2Buddy (ar.block ⟨k + 1, j⟩) ar.start k = ar.block ⟨k, 2 * j + 1⟩ := by
      rw [ar.block_left, ar.blk2Buddy_block hw1 (show k < buddyOrders by omega), hbud]
    have hne : ¬ (kdlistIsEmpty bud.heap (ar.head (k + 1)) = true) := by
      rw [h.linked.isEmpty_iff hk, hL]; simp
    have hpop := (h.linked.pop hk hL).1
    rw [List.nil_append, blkAllocSplit, h.freeList_eq, if_neg hne]
    cases hm : kdlistPopHead bud.heap (ar.head (k + 1)) with
    | mk it heap =>
      rw [hm] at hpop
      simp only at hpop
      subst hpop
      simp only [h.sAligned_eq, Nat.add_sub_cancel, haddr, h.freeList_eq]
      refine ⟨_, rfl, h.addr, h.mem, ?_, hset ▸ htile, ?_, h.mask⟩
      · have := h.linked.split h.tiles hk hL
        rw [hm] at this
        rw [ar.block_left]
        exact this
      · rw [hfree]
        apply Set.disjoint_left.mpr
        intro c hc hA
        have hov : ∀ d : Block, d.parent = ⟨k + 1, j⟩ → d ∉ A := fun d hd hdA =>
          h.not_overlap hp hdA (hd ▸ parent_overlap_iff.mpr (Or.inl (overlap_self d)))
        rcases hc with rfl | rfl | hc
        · exact hov _ (by rw [← hbud, parent_buddy, hpar]) hA
        · exact hov _ hpar hA
        · exact Set.disjoint_left.mp h.disjoint hc.1 hA

/-! ### The search -/

/-- A result does not depend on the fuel that is left. -/
theorem blkAlloc_mono {order : Nat} {x : Option Addr × BuddyT} : ∀ {fuel : Nat} {bud : BuddyT},
    blkAlloc fuel bud order = some x → ∀ n, blkAlloc (fuel + n) bud order = some x := by
  intro fuel
  induction fuel with
  | zero => intro bud h; rw [blkAlloc] at h; exact absurd h (by simp)
  | succ fuel ih =>
    intro bud h n
    rw [Nat.succ_add]
    rw [blkAlloc] at h ⊢
    split at h
    · exact h
    · split at h
      · exact ih h n
      · exact h

theorem buddyAlloc_mono {fuel : Nat} {bud : BuddyT} {bytes : BitVec 32} {x : Option Addr × BuddyT}
    (h : buddyAlloc fuel bud bytes = some x) (n : Nat) :
    buddyAlloc (fuel + n) bud bytes = some x := by
  rw [buddyAlloc] at h ⊢
  split at h
  next ho => rw [if_pos ho]; exact h
  next ho => rw [if_neg ho]; exact blkAlloc_mono h n

/-- The last round: the head of the requested order becomes live. -/
theorem blkAlloc_pop (h : Rep ar bud L A) {order j : Nat} {js : List Nat}
    (ho : order ≤ buddyOrders) (hL : L order = j :: js) (fuel : Nat) :
    ∃ bud', blkAlloc (fuel + 1) bud order = some (some (ar.block ⟨order, j⟩), bud') ∧
      Rep ar bud' (Function.update L order js) (insert ⟨order, j⟩ A) ∧
      freeSet (Function.update L order js) = freeSet L \ {⟨order, j⟩} := by
  have hb : (⟨order, j⟩ : Block) ∈ freeSet L := ⟨ho, by rw [hL]; simp⟩
  have hw := h.within_free hb
  have hF := freeSet_erase (b := ⟨order, j⟩) (l := []) (r := js) hL (h.linked.nodup ho)
  rw [List.nil_append] at hF
  obtain ⟨hpop, hl⟩ := h.linked.pop ho hL
  rw [blkAlloc, h.freeList_eq]
  cases hm : kdlistPopHead bud.heap (ar.head order) with
  | mk it heap =>
    rw [hm] at hpop hl
    simp only at hpop hl
    subst hpop
    simp only [h.sAligned_eq]
    refine ⟨_, rfl, ⟨h.addr, h.mem, hl, ?_, ?_, ?_⟩, hF⟩
    · have hset : freeSet L \ {⟨order, j⟩} ∪ insert ⟨order, j⟩ A = freeSet L ∪ A := by
        rw [Set.union_insert, ← Set.insert_union, Set.insert_sdiff_singleton,
          Set.insert_eq_of_mem hb]
      rw [hF, hset]
      exact h.tiles
    · rw [hF]
      apply Set.disjoint_left.mpr
      intro c hc hA
      rcases hA with rfl | hA
      · exact hc.2 rfl
      · exact Set.disjoint_left.mp h.disjoint hc.1 hA
    · intro bit hbit
      rw [blkSetAllocated, ar.blkInLvl2Bit_block hw, mask_set _ hbit, Bool.or_eq_true,
        h.mask bit hbit, decide_eq_true_eq]
      refine ⟨?_, ?_⟩
      · intro hx
        rcases hx with ⟨a, ha, he⟩ | he
        · exact ⟨a, Or.inr ha, he⟩
        · exact ⟨_, Or.inl rfl, he⟩
      · intro hx
        obtain ⟨a, rfl | ha, he⟩ := hx
        · exact Or.inr he
        · exact Or.inl ⟨a, ha, he⟩

/-- **The first half is split again and again, down to the requested order.** -/
theorem blkAlloc_descend (order : Nat) : ∀ (d : Nat) {bud : BuddyT} {L : Nat → List Nat} {j : Nat}
    {js : List Nat} {fuel : Nat}, Rep ar bud L A → order + d ≤ buddyOrders → L (order + d) = j :: js →
    (∀ k, order ≤ k → k < order + d → L k = []) →
    CoalescedBut ⟨order + d, j⟩ (freeSet L) → d < fuel →
    ∃ b bud' L', blkAlloc fuel bud order = some (some (ar.block b), bud') ∧ b.order = order ∧
      (∀ a ∈ A, ¬ b.Overlap a) ∧ Rep ar bud' L' (insert b A) ∧ Coalesced buddyOrders (freeSet L') := by
  intro d
  induction d with
  | zero =>
    intro bud L j js fuel h hk hL _ hco hf
    obtain ⟨n, rfl⟩ : ∃ n, fuel = n + 1 := ⟨fuel - 1, by omega⟩
    obtain ⟨bud', hr, hrep, hF⟩ := blkAlloc_pop h hk hL n
    refine ⟨_, bud', _, hr, rfl, fun a ha => ?_, hrep, ?_⟩
    · exact h.not_overlap ⟨hk, by rw [hL]; simp⟩ ha
    · rw [hF]
      intro f hf ho hbf
      exact hco f hf.1 ho hf.2 hbf.2 hbf.1
  | succ d ih =>
    intro bud L j js fuel h hk hL hempty hco hf
    obtain ⟨n, rfl⟩ : ∃ n, fuel = n + 1 := ⟨fuel - 1, by omega⟩
    have hrange : List.range' (order + 1) (buddyOrders - order) =
        List.range' (order + 1) d ++ (order + d + 1) ::
          List.range' (order + d + 2) (buddyOrders - (order + d + 1)) := by
      rw [show buddyOrders - order = d + ((buddyOrders - (order + d + 1)) + 1) by omega,
        ← List.range'_append_1, List.range'_succ, Nat.add_right_comm order 1 d]
    have hpre : ∀ i ∈ List.range' (order + 1) d, i ≤ buddyOrders ∧ L i = [] := by
      intro i hi
      rw [List.mem_range'_1] at hi
      exact ⟨by omega, hempty i (by omega) (by omega)⟩
    have hk' : order + d + 1 ≤ buddyOrders := hk
    obtain ⟨bud1, hs, hrep⟩ := @blkAllocSplit_cons _ _ _ _ h (order + d) j js
      (List.range' (order + d + 2) (buddyOrders - (order + d + 1))) hk' hL _ hpre
    have hfree := freeSet_splitLists (k := order + d) hk hL (h.linked.nodup hk)
    have hnil := hempty order le_rfl (by omega)
    rw [blkAlloc, h.freeList_eq, h.linked.pop_nil (by omega) hnil, hrange, hs]
    have hhead : splitLists L (order + d) j js (order + d) = 2 * j :: [2 * j + 1] := by
      simp [splitLists, hempty (order + d) (by omega) (by omega)]
    refine ih hrep (by omega) hhead (fun k hk1 hk2 => ?_) ?_ (by omega)
    · rw [splitLists, Function.update_of_ne (by omega), Function.update_of_ne (by omega)]
      exact hempty k hk1 (by omega)
    · -- of the new halves, one is the exception and the other its buddy
      have hbud : (⟨order + d, 2 * j⟩ : Block).buddy = ⟨order + d, 2 * j + 1⟩ := by simp [buddy]
      rw [hfree]
      intro f hf ho hne hbne hbf
      have hne' : f ≠ ⟨order + d, 2 * j + 1⟩ := by
        rintro rfl
        exact hbne (by rw [← hbud, buddy_buddy])
      have hbne' : f.buddy ≠ ⟨order + d, 2 * j + 1⟩ := by
        intro he
        exact hne (by rw [← buddy_buddy f, he, ← hbud, buddy_buddy])
      obtain ⟨hfL, hfp⟩ := (hf.resolve_left hne').resolve_left hne
      obtain ⟨hbL, hbp⟩ := (hbf.resolve_left hbne').resolve_left hbne
      exact hco f hfL ho hfp hbp hbL

/-- **`__blk_alloc` returns, with one of two outcomes**: a block of the requested
order that met no live block, or NULL with every list it could use empty. -/
theorem blkAlloc_spec (h : Rep ar bud L A) (hco : Coalesced buddyOrders (freeSet L)) {order : Nat}
    (ho : order ≤ buddyOrders) {fuel : Nat} (hf : buddyOrders < fuel) :
    (∃ b bud' L', blkAlloc fuel bud order = some (some (ar.block b), bud') ∧ b.order = order ∧
      (∀ a ∈ A, ¬ b.Overlap a) ∧ Rep ar bud' L' (insert b A) ∧
      Coalesced buddyOrders (freeSet L')) ∨
    (blkAlloc fuel bud order = some (none, bud) ∧
      ∀ k, order ≤ k → k ≤ buddyOrders → L k = []) := by
  by_cases hex : ∃ d, order + d ≤ buddyOrders ∧ L (order + d) ≠ []
  · left
    classical
    obtain ⟨hd, hne⟩ := Nat.find_spec hex
    obtain ⟨j, js, hL⟩ := List.exists_cons_of_ne_nil hne
    refine blkAlloc_descend order (Nat.find hex) h hd hL (fun k hk1 hk2 => ?_)
      (coalescedBut_of_coalesced hco _) (by omega)
    have hmin := Nat.find_min hex (m := k - order) (by omega)
    by_contra hk
    exact hmin ⟨by omega, by rwa [Nat.add_sub_cancel' hk1]⟩
  · right
    have hnil : ∀ k, order ≤ k → k ≤ buddyOrders → L k = [] := by
      intro k hk1 hk2
      by_contra hk
      exact hex ⟨k - order, by omega, by rwa [Nat.add_sub_cancel' hk1]⟩
    obtain ⟨n, rfl⟩ : ∃ n, fuel = n + 1 := ⟨fuel - 1, by omega⟩
    refine ⟨?_, hnil⟩
    rw [blkAlloc, h.freeList_eq, h.linked.pop_nil ho (hnil order le_rfl ho),
      blkAllocSplit_nil h _ (fun i hi => ?_)]
    rw [List.mem_range'_1] at hi
    exact ⟨by omega, hnil i (by omega) (by omega)⟩

/-- With no free block of the requested order or above, **every block of that
order meets a live one**. -/
theorem exists_overlap_of_empty (h : Rep ar bud L A) (hco : Coalesced buddyOrders (freeSet L))
    {c : Block} (hc : c.Within buddyOrders)
    (hnil : ∀ k, c.order ≤ k → k ≤ buddyOrders → L k = []) : ∃ a ∈ A, c.Overlap a := by
  by_contra hno
  push Not at hno
  obtain ⟨f, hf, hle, _⟩ := h.tiles.exists_above hc hno
    (fun f hf ho _ => hco f hf (lt_of_lt_of_le ho hc.1))
  have hmem := hf.2
  rw [hnil f.order hle hf.1] at hmem
  exact absurd hmem (by simp)

end DataStructures.Buddy
