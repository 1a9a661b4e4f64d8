import DataStructures.Allocator.Buddy.Address

/-!
# What the allocator's state represents

`Linked ar m L` reads the six rings of a store as six lists of indices: the
blocks of order `k` in `free_list[k]` are those with an index in `L k`.
`freeSet L` is the set of these blocks.  A push, a pop and a deletion of the list
code change `L` at one order (`Linked.push`, `Linked.pop`, `Linked.delete`), and
`freeSet` by one block.

`Rep ar bud L A` adds the rest: the free blocks and the live blocks `A` tile the
arena, and the bits of `tree_mask` are the bits of `A`.  `Rep.status_free_iff`
says what the recursive test `__blk_is_split` finds out on such a mask.

`CoalescedBut` is the invariant inside the loops, where one block may still be
waiting for its buddy.
-/

namespace DataStructures.Buddy

open Lib Kdlist Block

/-! ### Linked blocks -/

/-- The rings of the store, as lists of block indices by order. -/
def Linked (ar : Arena) (m : Store Addr) (L : Nat → List Nat) : Prop :=
  Rings m {k | k ≤ buddyOrders} ar.head (fun k => (L k).map (fun i => ar.block ⟨k, i⟩))

/-- The blocks the lists hold. -/
def freeSet (L : Nat → List Nat) : Set Block := {b | b.order ≤ buddyOrders ∧ b.index ∈ L b.order}

theorem map_update {β γ : Type} (f : Nat → β → γ) (L : Nat → List β) (k : Nat) (xs : List β) :
    (fun j => (Function.update L k xs j).map (f j)) =
      Function.update (fun j => (L j).map (f j)) k (xs.map (f k)) := by
  funext j
  by_cases h : j = k
  · subst h; simp
  · simp [h]

theorem freeSet_append {L : Nat → List Nat} {b : Block} (hb : b.order ≤ buddyOrders) :
    freeSet (Function.update L b.order (L b.order ++ [b.index])) = insert b (freeSet L) := by
  ext c
  simp only [freeSet, Set.mem_ofPred_eq, Set.mem_insert_iff]
  by_cases h : c.order = b.order
  · rw [h, Function.update_self, List.mem_append, List.mem_singleton]
    refine ⟨?_, ?_⟩
    · intro hx
      obtain ⟨_, hc | hc⟩ := hx
      · exact Or.inr ⟨hb, hc⟩
      · exact Or.inl (by cases b; cases c; simp_all)
    · intro hx
      rcases hx with rfl | ⟨_, hc⟩
      · exact ⟨hb, Or.inr rfl⟩
      · exact ⟨hb, Or.inl hc⟩
  · rw [Function.update_of_ne h]
    constructor
    · exact Or.inr
    · rintro (rfl | hc)
      · exact absurd rfl h
      · exact hc

theorem freeSet_erase {L : Nat → List Nat} {b : Block} {l r : List Nat}
    (hL : L b.order = l ++ b.index :: r) (hn : (L b.order).Nodup) :
    freeSet (Function.update L b.order (l ++ r)) = freeSet L \ {b} := by
  ext c
  simp only [freeSet, Set.mem_ofPred_eq, Set.mem_sdiff, Set.mem_singleton_iff]
  by_cases h : c.order = b.order
  · rw [h, Function.update_self]
    rw [hL] at hn ⊢
    have hne : c = b ↔ c.index = b.index := by
      cases b; cases c; simp_all
    rw [hne]
    have hni := (List.nodup_middle.mp hn)
    rw [List.nodup_cons] at hni
    refine ⟨?_, ?_⟩
    · intro hx
      obtain ⟨h1, h2⟩ := hx
      refine ⟨⟨h1, ?_⟩, fun he => hni.1 (he ▸ h2)⟩
      simp only [List.mem_append, List.mem_cons] at h2 ⊢
      tauto
    · intro hx
      obtain ⟨⟨h1, h2⟩, h3⟩ := hx
      refine ⟨h1, ?_⟩
      simp only [List.mem_append, List.mem_cons] at h2 ⊢
      tauto
  · rw [Function.update_of_ne h]
    constructor
    · exact fun hc => ⟨hc, fun he => h (he ▸ rfl)⟩
    · exact fun hc => hc.1

namespace Linked

variable {ar : Arena} {m : Store Addr} {L : Nat → List Nat} {b : Block}

theorem nodup (h : Linked ar m L) {k : Nat} (hk : k ≤ buddyOrders) : (L k).Nodup :=
  List.Nodup.of_map _ (List.nodup_cons.mp (h.ring k hk).nodup).2

/-- **Pushing a block that meets no linked block** links it at the tail. -/
theorem push (h : Linked ar m L) (hw : ∀ f ∈ freeSet L, f.Within buddyOrders)
    (hb : b.Within buddyOrders) (hno : ∀ f ∈ freeSet L, ¬ f.Overlap b) :
    Linked ar (kdlistPushTail m (ar.head b.order) (ar.block b))
      (Function.update L b.order (L b.order ++ [b.index])) := by
  unfold Linked
  rw [map_update (fun k i => ar.block ⟨k, i⟩), List.map_append, List.map_singleton]
  refine kdlistPushTail_rings h hb.1 (fun k hk hmem => ?_)
  rcases List.mem_cons.mp hmem with he | hmem
  · exact ar.page_ne_head (start_lt_of_within hb) hk he
  · obtain ⟨i, hi, he⟩ := List.mem_map.mp hmem
    have hf : (⟨k, i⟩ : Block) ∈ freeSet L := ⟨hk, hi⟩
    have h1 := start_lt_of_within (hw _ hf)
    have h2 := start_lt_of_within hb
    have hs := ar.page_inj (by omega) (by omega) he
    exact hno _ hf ⟨_, has_start _, hs ▸ has_start b⟩

/-- **Popping** takes the first block of the list. -/
theorem pop (h : Linked ar m L) {k i : Nat} {is : List Nat} (hk : k ≤ buddyOrders)
    (hL : L k = i :: is) :
    (kdlistPopHead m (ar.head k)).1 = some (ar.block ⟨k, i⟩) ∧
      Linked ar (kdlistPopHead m (ar.head k)).2 (Function.update L k is) := by
  unfold Linked
  rw [map_update (fun k i => ar.block ⟨k, i⟩)]
  exact kdlistPopHead_rings h hk (by rw [hL, List.map_cons])

theorem pop_nil (h : Linked ar m L) {k : Nat} (hk : k ≤ buddyOrders) (hL : L k = []) :
    kdlistPopHead m (ar.head k) = (none, m) :=
  kdlistPopHead_rings_nil h hk (by rw [hL, List.map_nil])

theorem isEmpty_iff (h : Linked ar m L) {k : Nat} (hk : k ≤ buddyOrders) :
    kdlistIsEmpty m (ar.head k) = true ↔ L k = [] := by
  rw [kdlistIsEmpty_iff (h.ring k hk), List.map_eq_nil_iff]

/-- **Deleting** a linked block takes it out of its list. -/
theorem delete (h : Linked ar m L) (hb : b.order ≤ buddyOrders) {l r : List Nat}
    (hL : L b.order = l ++ b.index :: r) :
    Linked ar (kdlistDelete m (ar.block b)) (Function.update L b.order (l ++ r)) := by
  unfold Linked
  rw [map_update (fun k i => ar.block ⟨k, i⟩), List.map_append]
  exact kdlistDelete_rings h hb (by rw [hL, List.map_append, List.map_cons])

end Linked

/-! ### The representation -/

/-- `bud` holds the free blocks `L` and the live blocks `A` of the arena. -/
structure Rep (ar : Arena) (bud : BuddyT) (L : Nat → List Nat) (A : Set Block) : Prop where
  addr : bud.addr = ar.addr
  mem : bud.mem = ar.mem
  linked : Linked ar bud.heap L
  tiles : Tiles buddyOrders (freeSet L ∪ A)
  disjoint : Disjoint (freeSet L) A
  mask : ∀ bit < 64, bud.treeMask.getLsbD bit = true ↔ ∃ a ∈ A, bitOf a = bit

/-- No two free blocks are buddies, those two apart of which one is `c`. -/
def CoalescedBut (c : Block) (F : Set Block) : Prop :=
  ∀ b ∈ F, b.order < buddyOrders → b ≠ c → b.buddy ≠ c → b.buddy ∉ F

theorem coalescedBut_of_coalesced {F : Set Block} (h : Coalesced buddyOrders F) (c : Block) :
    CoalescedBut c F :=
  fun b hb ho _ _ => h b hb ho

namespace Rep

variable {ar : Arena} {bud : BuddyT} {L : Nat → List Nat} {A : Set Block} {b : Block}

theorem freeList_eq (h : Rep ar bud L A) (k : Nat) : bud.freeList k = ar.head k := by
  rw [BuddyT.freeList, h.addr]; rfl

theorem sAligned_eq (h : Rep ar bud L A) : bud.sAligned = ar.start := by
  rw [BuddyT.sAligned, h.mem]; rfl

theorem within_free (h : Rep ar bud L A) {f : Block} (hf : f ∈ freeSet L) :
    f.Within buddyOrders := h.tiles.within f (Or.inl hf)

theorem within_live (h : Rep ar bud L A) {a : Block} (ha : a ∈ A) : a.Within buddyOrders :=
  h.tiles.within a (Or.inr ha)

/-- A free block meets no live block. -/
theorem not_overlap (h : Rep ar bud L A) {f a : Block} (hf : f ∈ freeSet L) (ha : a ∈ A) :
    ¬ f.Overlap a := by
  intro hov
  have he := h.tiles.unique f (Or.inl hf) a (Or.inr ha) hov
  exact Set.disjoint_left.mp h.disjoint hf (he ▸ ha)

/-- **A bit of the mask is set exactly when its block is live.** -/
theorem mask_bit (h : Rep ar bud L A) (hb : b.Within buddyOrders) :
    bud.treeMask.getLsbD (bitOf b) = true ↔ b ∈ A := by
  have hlt := bitOf_lt hb
  rw [h.mask _ (by omega)]
  constructor
  · rintro ⟨a, ha, he⟩
    rwa [← bitOf_inj (h.within_live ha) hb he]
  · exact fun hA => ⟨b, hA, rfl⟩

theorem isAllocated_iff (h : Rep ar bud L A) (hb : b.Within buddyOrders) :
    blkIsAllocated bud.treeMask (ar.block b) ar.start (order2Level b.order) = true ↔ b ∈ A := by
  have hlt := bitOf_lt hb
  rw [blkIsAllocated, ar.blkInLvl2Bit_block hb, mask_test _ (by omega), h.mask_bit hb]

/-- **`__blk_is_split` looks for a live block inside the given one.**  By
induction on the order, which is the height of the node in the mask. -/
theorem isSplit_iff (h : Rep ar bud L A) : ∀ (k : Nat) {b : Block}, b.order = k →
    b.Within buddyOrders → (blkIsSplit bud.treeMask (bitOf b) (order2Level b.order) = true ↔
      ∃ a ∈ A, a.order ≤ b.order ∧ a.Overlap b) := by
  intro k
  induction k with
  | zero =>
    intro b ho hb
    have hlt := bitOf_lt hb
    rw [blkIsSplit, if_pos (by simp [order2Level, ho]), mask_test _ (by omega), h.mask_bit hb]
    constructor
    · exact fun hA => ⟨b, hA, le_rfl, overlap_self b⟩
    · rintro ⟨a, ha, hle, hov⟩
      rwa [← eq_of_overlap hov (by omega)]
  | succ k ih =>
    intro b ho hb
    have hlt := bitOf_lt hb
    have hpos : 0 < b.order := by omega
    have hle := hb.1
    have hl : b.left.parent = b := left_parent hpos
    have hwl : b.left.Within buddyOrders := within_of_parent (by rw [hl]; exact hb)
    have hwr : b.right.Within buddyOrders := by
      rw [← left_buddy]
      exact within_of_parent (by rw [parent_buddy, hl]; exact hb)
    have hlev : order2Level b.order + 1 = order2Level b.left.order := by
      simp only [order2Level, left_order]; omega
    have hlev' : order2Level b.order + 1 = order2Level b.right.order := by
      simp only [order2Level, right_order]; omega
    have h1 := bitOf_lt hwl
    have h2 := bitOf_lt hwr
    rw [blkIsSplit, if_neg (by simp only [order2Level]; omega), mask_test _ (by omega),
      ← bitOf_left hb hpos, ← bitOf_right hb hpos, Nat.mod_eq_of_lt (by omega),
      Nat.mod_eq_of_lt (by omega), Bool.or_eq_true, Bool.or_eq_true, h.mask_bit hb]
    nth_rewrite 1 [hlev]
    rw [hlev', ih (by rw [left_order]; omega) hwl, ih (by rw [right_order]; omega) hwr]
    simp only [left_order, right_order]
    refine ⟨?_, ?_⟩
    · intro hx
      rcases hx with (hA | ⟨a, ha, hle, hov⟩) | ⟨a, ha, hle, hov⟩
      · exact ⟨b, hA, le_rfl, overlap_self b⟩
      · refine ⟨a, ha, by omega, Overlap.symm ?_⟩
        rw [← hl]
        exact parent_overlap_iff.mpr (Or.inl hov.symm)
      · refine ⟨a, ha, by omega, Overlap.symm ?_⟩
        rw [← hl]
        exact parent_overlap_iff.mpr (Or.inr (by rw [left_buddy]; exact hov.symm))
    · intro hx
      obtain ⟨a, ha, hle, hov⟩ := hx
      rcases Nat.eq_or_lt_of_le hle with he | hlt
      · exact Or.inl (Or.inl (eq_of_overlap hov he ▸ ha))
      · have := hov.symm
        rw [← hl] at this
        rcases parent_overlap_iff.mp this with hov | hov
        · exact Or.inl (Or.inr ⟨a, ha, by omega, hov.symm⟩)
        · exact Or.inr ⟨a, ha, by omega, by rw [← left_buddy]; exact hov.symm⟩

/-- **`__blk_get_status` reports a block free** exactly when no live block lies
inside it. -/
theorem status_free_iff (h : Rep ar bud L A) (hb : b.Within buddyOrders) :
    blkGetStatus bud.treeMask (ar.block b) ar.start (order2Level b.order) = .free ↔
      ∀ a ∈ A, a.order ≤ b.order → ¬ a.Overlap b := by
  have hs := h.isSplit_iff b.order rfl hb
  have ha := h.isAllocated_iff hb
  rw [blkGetStatus, ar.blkInLvl2Bit_block hb]
  refine ⟨?_, ?_⟩
  · intro hst a haA hle hov
    have := hs.mpr ⟨a, haA, hle, hov⟩
    rw [if_pos this] at hst
    split at hst <;> exact absurd hst (by decide)
  · intro hno
    have h1 : b ∉ A := fun hA => hno b hA le_rfl (overlap_self b)
    rw [if_neg (fun hc => h1 (ha.mp hc)), if_neg]
    intro hc
    obtain ⟨a, haA, hle, hov⟩ := hs.mp hc
    exact hno a haA hle hov

/-- **The buddy of a free block is reported free exactly when it is a linked
block of the same order.** -/
theorem status_buddy_iff (h : Rep ar bud L A) (hb : b ∈ freeSet L) (ho : b.order < buddyOrders)
    (hco : CoalescedBut b (freeSet L)) :
    blkGetStatus bud.treeMask (ar.block b.buddy) ar.start (order2Level b.order) = .free ↔
      b.buddy ∈ freeSet L := by
  have hw := within_buddy (h.within_free hb) ho
  rw [show b.order = b.buddy.order from rfl, h.status_free_iff hw]
  refine ⟨?_, ?_⟩
  · intro hno
    -- a live block around the buddy would be one around `b`
    have hA : ∀ a ∈ A, ¬ b.buddy.Overlap a := by
      intro a ha hov
      rcases Nat.lt_or_ge b.buddy.order a.order with hlt | hge
      · have := Overlap.buddy_of_lt hov hlt
        rw [buddy_buddy] at this
        exact h.not_overlap hb ha this
      · exact hno a ha hge hov.symm
    obtain ⟨f, hf, hle, hov⟩ := h.tiles.exists_above hw hA (fun f hf hlt hov => by
      refine hco f hf (lt_trans hlt ho) (fun he => ?_) (fun he => ?_)
      · exact absurd (congrArg order he) (Nat.ne_of_lt hlt)
      · have := congrArg order he
        simp only [buddy_order] at this hlt
        omega)
    rcases Nat.eq_or_lt_of_le hle with he | hlt
    · rwa [eq_of_overlap hov he]
    · have hbf := Overlap.buddy_of_lt hov hlt
      rw [buddy_buddy] at hbf
      have := h.tiles.unique b (Or.inl hb) f (Or.inl hf) hbf
      rw [← this] at hlt
      exact absurd hlt (lt_irrefl _)
  · exact fun hf a ha _ hov => h.not_overlap hf ha hov.symm

end Rep

end DataStructures.Buddy
