import DataStructures.Allocator.Buddy.Invariant

/-!
# `__blk_free` and `buddy_free`

`blkMerge_spec` is the merge loop, by induction on the level.  Its invariant is
`CoalescedBut` for the block in hand: whatever the loop decides about the buddy,
`Rep.status_buddy_iff` says the decision is right, so either the two are merged
and the parent is in hand, or no free buddies are left.

`buddyFreeLevel_some` and `buddyFreeLevel_none` are the search for the level.
`buddyFree_live` and `buddyFree_of_not_live` then say what `buddy_free` does with an
address in the arena, and `buddyFree_end` what it does with the address one past
it, which the validation lets through.
-/

namespace DataStructures.Buddy

open Lib Kdlist Block

variable {ar : Arena} {bud : BuddyT} {L : Nat → List Nat} {A : Set Block}

/-! ### Merging -/

theorem min_block (ar : Arena) {b : Block} (hb : b.Within buddyOrders) (ho : b.order < buddyOrders) :
    (if ar.block b < ar.block b.buddy then ar.block b else ar.block b.buddy) =
      ar.block b.parent := by
  have hw := within_buddy hb ho
  rw [show (if ar.block b < ar.block b.buddy then ar.block b else ar.block b.buddy) =
    if b.start < b.buddy.start then ar.block b else ar.block b.buddy from
      if_congr (ar.block_lt_iff hb hw) rfl rfl]
  obtain ⟨k, i⟩ := b
  have hp : (0 : Nat) < 2 ^ k := Nat.two_pow_pos k
  simp only [buddy, Block.start, parent, xor_one]
  rw [ar.block_left]
  by_cases hi : i % 2 = 0
  · rw [if_pos hi, if_pos (Nat.mul_lt_mul_of_pos_right (Nat.lt_succ_self i) hp),
      show 2 * (i / 2) = i by omega]
  · rw [if_neg hi, if_neg (not_lt.mpr (Nat.mul_le_mul_right _ (Nat.sub_le i 1))),
      show 2 * (i / 2) = i - 1 by omega]

/-- Below the top level a block has a parent, one level up. -/
theorem level_succ {b : Block} {lvl : Nat} (h : order2Level b.order = lvl + 1) :
    b.order < buddyOrders ∧ level2Order (lvl + 1) = b.order ∧
      order2Level b.parent.order = lvl := by
  simp only [level2Order, order2Level, parent_order] at *
  omega

/-- Delete two free buddies and push their parent: the three list operations of
one merge. -/
theorem Linked.merge {m : Store Addr} {b : Block} (h : Linked ar m L)
    (ht : Tiles buddyOrders (freeSet L ∪ A)) (hb : b ∈ freeSet L) (hc : b.buddy ∈ freeSet L)
    (ho : b.order < buddyOrders) :
    ∃ L', Linked ar (kdlistPushTail (kdlistDelete (kdlistDelete m (ar.block b))
        (ar.block b.buddy)) (ar.head (b.order + 1)) (ar.block b.parent)) L' ∧
      freeSet L' = insert b.parent (freeSet L \ {b, b.buddy}) := by
  obtain ⟨l, r, hL⟩ := List.append_of_mem hb.2
  have h1 := h.delete hb.1 hL
  have hF1 := freeSet_erase hL (h.nodup hb.1)
  have hc' : b.buddy ∈ freeSet (Function.update L b.order (l ++ r)) := by
    rw [hF1]; exact ⟨hc, buddy_ne b⟩
  obtain ⟨l', r', hL'⟩ := List.append_of_mem hc'.2
  have h2 := h1.delete hc'.1 hL'
  have hF2 := freeSet_erase hL' (h1.nodup hc'.1)
  have hsub : ∀ f ∈ (freeSet L \ {b}) \ {b.buddy}, f.Within buddyOrders ∧ ¬ f.Overlap b.parent := by
    rintro f ⟨⟨hf, hfb⟩, hfc⟩
    refine ⟨ht.within f (Or.inl hf), fun hov => ?_⟩
    rcases parent_overlap_iff.mp hov.symm with hov | hov
    · exact hfb (ht.unique b (Or.inl hb) f (Or.inl hf) hov).symm
    · exact hfc (ht.unique _ (Or.inl hc) f (Or.inl hf) hov).symm
  rw [hF1] at hF2
  have h3 := h2.push (b := b.parent) (fun f hf => (hsub f (hF2 ▸ hf)).1)
    (within_parent (ht.within b (Or.inl hb)) ho) (fun f hf => (hsub f (hF2 ▸ hf)).2)
  refine ⟨_, h3, ?_⟩
  rw [freeSet_append (b := b.parent) ho, hF2, Set.sdiff_sdiff, Set.singleton_union]

section CoalescedBut

variable {b : Block} {F : Set Block}

/-- The loop stops at a block whose buddy is not free. -/
theorem CoalescedBut.coalesced (h : CoalescedBut b F) (hc : b.buddy ∉ F) :
    Coalesced buddyOrders F := by
  intro f hf hfo hbf
  by_cases h1 : f = b
  · exact hc (h1 ▸ hbf)
  · by_cases h2 : f.buddy = b
    · exact hc (by rw [← h2, buddy_buddy]; exact hf)
    · exact h f hf hfo h1 h2 hbf

/-- It stops at the top, which has no buddy. -/
theorem CoalescedBut.coalesced_top (h : CoalescedBut b F) (ho : b.order = buddyOrders) :
    Coalesced buddyOrders F := by
  intro f hf hfo
  refine h f hf hfo (by rintro rfl; omega) (fun he => ?_)
  have := congrArg order he
  rw [buddy_order] at this
  omega

/-- After a merge the parent is in hand. -/
theorem CoalescedBut.parent (h : CoalescedBut b F) :
    CoalescedBut b.parent (insert b.parent (F \ {b, b.buddy})) := by
  intro f hf hfo h1 h2 hbf
  obtain ⟨hfL, hfn⟩ := hf.resolve_left h1
  obtain ⟨hbL, hbn⟩ := hbf.resolve_left h2
  simp only [Set.mem_insert_iff, Set.mem_singleton_iff, not_or] at hfn hbn
  exact h f hfL hfo hfn.1 hbn.1 hbL

end CoalescedBut

/-- **One merge**: the two buddies are gone from the lists, their parent is there instead, and
the live blocks are what they were. -/
theorem Rep.merge (h : Rep ar bud L A) {b : Block} (hb : b ∈ freeSet L) (hc : b.buddy ∈ freeSet L)
    (ho : b.order < buddyOrders) :
    ∃ L', Rep ar { bud with heap := kdlistPushTail (kdlistDelete (kdlistDelete bud.heap
        (ar.block b)) (ar.block b.buddy)) (ar.head (b.order + 1)) (ar.block b.parent) } L' A ∧
      freeSet L' = insert b.parent (freeSet L \ {b, b.buddy}) := by
  obtain ⟨L', hl, hF⟩ := h.linked.merge h.tiles hb hc ho
  have hset : freeSet L' ∪ A = insert b.parent ((freeSet L ∪ A) \ {b, b.buddy}) := by
    have hA : A \ {b, b.buddy} = A := by
      refine (h.disjoint.symm.mono_right ?_).sdiff_eq_left
      exact Set.insert_subset hb (Set.singleton_subset_iff.mpr hc)
    rw [hF, Set.insert_union, Set.union_sdiff_distrib, hA]
  refine ⟨L', ⟨h.addr, h.mem, hl, ?_, ?_, h.mask⟩, hF⟩
  · rw [hset]
    exact h.tiles.merge (Or.inl hb) (Or.inl hc) ho
  · rw [hF]
    apply Set.disjoint_left.mpr
    intro c hcF hcA
    rcases hcF with rfl | hcF
    · exact h.not_overlap hb hcA (parent_overlap_iff.mpr (Or.inl (overlap_self b))).symm
    · exact Set.disjoint_left.mp h.disjoint hcF.1 hcA

/-- **The merge loop restores the invariant**, and leaves the live blocks alone. -/
theorem blkMerge_spec : ∀ (lvl : Nat) {bud : BuddyT} {L : Nat → List Nat} {b : Block},
    Rep ar bud L A → b ∈ freeSet L → order2Level b.order = lvl → CoalescedBut b (freeSet L) →
    ∃ L', Rep ar (blkMerge bud lvl (ar.block b)) L' A ∧ Coalesced buddyOrders (freeSet L') := by
  intro lvl
  induction lvl with
  | zero =>
    intro bud L b h hb hlvl hco
    refine ⟨L, h, hco.coalesced_top ?_⟩
    have := hb.1
    simp only [order2Level] at hlvl
    omega
  | succ lvl ih =>
    intro bud L b h hb hlvl hco
    obtain ⟨ho, hord, hpar⟩ := level_succ hlvl
    have hst := h.status_buddy_iff hb ho hco
    rw [hlvl] at hst
    rw [blkMerge, hord, h.sAligned_eq, ar.blk2Buddy_block (h.within_free hb) ho]
    cases hs : blkGetStatus bud.treeMask (ar.block b.buddy) ar.start (lvl + 1) with
    | split | allocated =>
      exact ⟨L, h, hco.coalesced (fun hc => by rw [hst.mpr hc] at hs; exact absurd hs (by decide))⟩
    | free =>
      have hc := hst.mp hs
      obtain ⟨L', hrep, hF⟩ := h.merge hb hc ho
      rw [min_block ar (h.within_free hb) ho, h.freeList_eq]
      refine ih (b := b.parent) hrep ?_ hpar ?_
      · rw [hF]; exact Set.mem_insert _ _
      · rw [hF]; exact hco.parent

/-! ### Freeing a live block -/

/-- The level `__blk_free` is called with has the order of the block. -/
theorem level2Order_order2Level {b : Block} (hw : b.Within buddyOrders) :
    level2Order (order2Level b.order) = b.order := by
  have := hw.1
  simp only [level2Order, order2Level]
  omega

/-- What `__blk_free` does ahead of its loop: the bit is cleared and the block linked. -/
def released (bud : BuddyT) (blk : Addr) (lvl : Nat) : BuddyT :=
  { bud with
    treeMask := blkClrAllocated bud.treeMask blk bud.sAligned lvl,
    heap := kdlistPushTail bud.heap (bud.freeList (level2Order lvl)) blk }

/-- **Ahead of the loop** the block is free and no longer live, and only it may have its buddy
free. -/
theorem Rep.release (h : Rep ar bud L A) (hco : Coalesced buddyOrders (freeSet L)) {b : Block}
    (hb : b ∈ A) : ∃ L', Rep ar (released bud (ar.block b) (order2Level b.order)) L' (A \ {b}) ∧
      b ∈ freeSet L' ∧ CoalescedBut b (freeSet L') := by
  have hw := h.within_live hb
  have hF := freeSet_append (L := L) hw.1
  have hl := h.linked.push (fun f hf => h.within_free hf) hw (fun f hf => h.not_overlap hf hb)
  refine ⟨Function.update L b.order (L b.order ++ [b.index]), ?_, ?_, ?_⟩
  · rw [released, level2Order_order2Level hw, h.freeList_eq, h.sAligned_eq]
    refine ⟨h.addr, h.mem, hl, ?_, ?_, fun bit hbit => ?_⟩
    · have hset : insert b (freeSet L) ∪ A \ {b} = freeSet L ∪ A := by
        rw [Set.insert_union, ← Set.union_insert, Set.insert_sdiff_singleton,
          Set.insert_eq_of_mem hb]
      rw [hF, hset]
      exact h.tiles
    · rw [hF]
      apply Set.disjoint_left.mpr
      intro c hc hA
      rcases hc with rfl | hc
      · exact hA.2 rfl
      · exact Set.disjoint_left.mp h.disjoint hc hA.1
    · rw [blkClrAllocated, ar.blkInLvl2Bit_block hw, mask_clr _ hbit, Bool.and_eq_true,
        h.mask bit hbit, Bool.not_eq_true', decide_eq_false_iff_not]
      refine ⟨?_, ?_⟩
      · intro hx
        obtain ⟨⟨a, ha, he⟩, hne⟩ := hx
        exact ⟨a, ⟨ha, fun hab => hne (hab ▸ he)⟩, he⟩
      · intro hx
        obtain ⟨a, ⟨ha, hab⟩, he⟩ := hx
        exact ⟨⟨a, ha, he⟩, fun hbb => hab (bitOf_inj (h.within_live ha) hw (he.trans hbb.symm))⟩
  · rw [hF]; exact Set.mem_insert _ _
  · rw [hF]
    intro f hf ho h1 h2 hbf
    exact hco f (hf.resolve_left h1) ho (hbf.resolve_left h2)

/-- **`__blk_free` on a live block** ends that block and no other, and merges
all there is to merge. -/
theorem blkFree_spec (h : Rep ar bud L A) (hco : Coalesced buddyOrders (freeSet L)) {b : Block}
    (hb : b ∈ A) : ∃ bud' L', blkFree bud (ar.block b) (order2Level b.order) = (0, bud') ∧
      Rep ar bud' L' (A \ {b}) ∧ Coalesced buddyOrders (freeSet L') := by
  obtain ⟨L1, hrep, hbF, hbut⟩ := h.release hco hb
  obtain ⟨L', hrep', hco'⟩ := blkMerge_spec (order2Level b.order) hrep hbF rfl hbut
  exact ⟨_, L', rfl, hrep', hco'⟩

/-! ### Searching for the level -/

/-- The probe of `buddy_free` at one level. -/
def Probes (bud : BuddyT) (blk : Addr) (level : Nat) : Prop :=
  blkInLvlAligned blk bud.sAligned level = true ∧
    blkIsAllocated bud.treeMask blk bud.sAligned level = true

theorem buddyFreeLevel_none (bud : BuddyT) (blk : Addr) : ∀ n, (∀ l < n, ¬ Probes bud blk l) →
    buddyFreeLevel bud blk n = (-1, bud) := by
  intro n
  induction n with
  | zero => intro _; rfl
  | succ n ih =>
    intro h
    have hn := h n (Nat.lt_succ_self n)
    have hrest := ih (fun l hl => h l (Nat.lt_succ_of_lt hl))
    rw [buddyFreeLevel]
    cases ha : blkInLvlAligned blk bud.sAligned n with
    | false => exact hrest
    | true => rw [if_neg (by simp), if_neg (fun hc => hn ⟨ha, hc⟩), hrest]

/-- The search stops at the highest level that answers. -/
theorem buddyFreeLevel_some (bud : BuddyT) (blk : Addr) : ∀ n l, l < n → Probes bud blk l →
    (∀ l', l < l' → l' < n → ¬ Probes bud blk l') →
    buddyFreeLevel bud blk n = blkFree bud blk l := by
  intro n
  induction n with
  | zero => intro l hl; omega
  | succ n ih =>
    intro l hl hp hmax
    rw [buddyFreeLevel]
    by_cases hln : l = n
    · subst hln
      rw [hp.1, hp.2, if_neg (by simp), if_pos rfl]
    · have hn := hmax n (by omega) (Nat.lt_succ_self n)
      have hrest := ih l (by omega) hp (fun l' h1 h2 => hmax l' h1 (Nat.lt_succ_of_lt h2))
      cases ha : blkInLvlAligned blk bud.sAligned n with
      | false => exact hrest
      | true => rw [if_neg (by simp), if_neg (fun hc => hn ⟨ha, hc⟩), hrest]

/-- **In the arena a level answers exactly when a live block of its order starts
there.** -/
theorem probes_page_iff (h : Rep ar bud L A) {p l : Nat} (hp : p < 32) (hl : l ≤ buddyOrders) :
    Probes bud (ar.page p) l ↔ ∃ a ∈ A, a.order = level2Order l ∧ a.start = p := by
  have hl5 : l ≤ 5 := hl
  rw [Probes, h.sAligned_eq, ar.blkInLvlAligned_page (by omega) hl5, decide_eq_true_eq]
  have hle : level2Order l ≤ buddyOrders := Nat.sub_le _ _
  have hll : order2Level (level2Order l) = l := by
    simp only [level2Order, order2Level]; omega
  refine ⟨?_, ?_⟩
  · intro hx
    obtain ⟨hd, ha⟩ := hx
    have hst : (⟨level2Order l, p / 2 ^ level2Order l⟩ : Block).start = p := Nat.div_mul_cancel hd
    have hw : (⟨level2Order l, p / 2 ^ level2Order l⟩ : Block).Within buddyOrders := by
      refine ⟨hle, ?_⟩
      rw [Nat.div_lt_iff_lt_mul (Nat.two_pow_pos _), ← Nat.pow_add, Nat.sub_add_cancel hle]
      exact hp
    have := h.isAllocated_iff hw
    rw [Arena.block, hst, hll] at this
    exact ⟨_, this.mp ha, rfl, hst⟩
  · intro hx
    obtain ⟨a, haA, ho, rfl⟩ := hx
    have := h.isAllocated_iff (h.within_live haA)
    rw [ho, hll] at this
    exact ⟨by rw [← ho]; exact Nat.dvd_mul_left _ _, this.mpr haA⟩

/-- The validation of `buddy_free`. -/
theorem buddyFree_of_page (h : Rep ar bud L A) {p : Nat} (hp : p ≤ 32) :
    buddyFree bud (ar.page p) = buddyFreeLevel bud (ar.page p) (buddyOrders + 1) := by
  rw [buddyFree, h.sAligned_eq, if_neg ((ar.valid_iff _).mpr ⟨p, hp, rfl⟩)]

theorem buddyFree_of_invalid (h : Rep ar bud L A) {blk : Addr} (hn : ¬ ∃ p ≤ 32, blk = ar.page p) :
    buddyFree bud blk = (-1, bud) := by
  rw [buddyFree, h.sAligned_eq, if_pos (by by_contra hc; exact hn ((ar.valid_iff _).mp hc))]

/-- **Freeing the start of a live block** finds that block's own level. -/
theorem buddyFree_live (h : Rep ar bud L A) {b : Block} (hb : b ∈ A) :
    buddyFree bud (ar.block b) = blkFree bud (ar.block b) (order2Level b.order) := by
  have hw := h.within_live hb
  have hs := start_lt_of_within hw
  have hlb : order2Level b.order ≤ buddyOrders := Nat.sub_le _ _
  have hlevel := level2Order_order2Level hw
  rw [Arena.block, buddyFree_of_page h (by omega)]
  refine buddyFreeLevel_some bud _ _ _ (Nat.lt_succ_of_le hlb)
    ((probes_page_iff h hs hlb).mpr ⟨b, hb, hlevel.symm, rfl⟩) (fun l' h1 h2 hpr => ?_)
  obtain ⟨a, ha, ho, hst⟩ := (probes_page_iff h hs (Nat.le_of_lt_succ h2)).mp hpr
  have hab := h.tiles.unique a (Or.inr ha) b (Or.inr hb) ⟨a.start, has_start a, hst ▸ has_start b⟩
  rw [hab] at ho
  simp only [level2Order, order2Level] at ho h1
  have := hw.1
  omega

/-- **Freeing any other address of the arena** is refused and changes nothing. -/
theorem buddyFree_of_not_live (h : Rep ar bud L A) {blk : Addr}
    (hn : ∀ b ∈ A, blk ≠ ar.block b) (hend : blk ≠ ar.page 32) : buddyFree bud blk = (-1, bud) := by
  by_cases hv : ∃ p ≤ 32, blk = ar.page p
  · obtain ⟨p, hp, rfl⟩ := hv
    have hp32 : p < 32 := lt_of_le_of_ne hp (by rintro rfl; exact hend rfl)
    rw [buddyFree_of_page h hp]
    refine buddyFreeLevel_none bud _ _ (fun l hl hpr => ?_)
    obtain ⟨a, ha, _, rfl⟩ := (probes_page_iff h hp32 (Nat.le_of_lt_succ hl)).mp hpr
    exact hn a ha rfl
  · exact buddyFree_of_invalid h hv

/-- **One past the arena the bits of the levels run into each other**: level `l`
reads the bit of the first block of level `l + 1`. -/
theorem probes_end_iff (h : Rep ar bud L A) {l : Nat} (hl : l ≤ buddyOrders) :
    Probes bud (ar.page 32) l ↔ ∃ a ∈ A, a.index = 0 ∧ a.order + 1 = level2Order l := by
  have hl5 : l ≤ 5 := hl
  have hbit : 2 ^ l - 1 + 32 / 2 ^ level2Order l = 2 ^ (l + 1) - 1 := by
    have hpow : 32 = 2 ^ level2Order l * 2 ^ l := by
      rw [← Nat.pow_add, show level2Order l + l = 5 by
        simp only [level2Order, order2Level, buddyOrders]; omega]
    rw [hpow, Nat.mul_div_cancel_left _ (Nat.two_pow_pos _), Nat.pow_succ]
    have := Nat.two_pow_pos l
    omega
  have hdvd : 2 ^ level2Order l ∣ 32 := by
    rw [show 32 = 2 ^ 5 by rfl]
    exact Nat.pow_dvd_pow 2 (Nat.sub_le _ _)
  have hlt : 2 ^ (l + 1) - 1 < 64 := by
    have : 2 ^ (l + 1) ≤ 2 ^ 6 := Nat.pow_le_pow_right (by omega) (by omega)
    omega
  rw [Probes, h.sAligned_eq, ar.blkInLvlAligned_page le_rfl hl5, blkIsAllocated,
    ar.blkInLvl2Bit_page le_rfl hl5, hbit, mask_test _ hlt, h.mask _ hlt, decide_eq_true_eq]
  refine ⟨?_, ?_⟩
  · intro hx
    obtain ⟨_, a, ha, he⟩ := hx
    refine ⟨a, ha, ?_⟩
    have hwa := h.within_live ha
    by_cases hl' : l = 5
    · subst hl'
      have := bitOf_lt hwa
      omega
    · have hw0 : (⟨level2Order l - 1, 0⟩ : Block).Within buddyOrders :=
        ⟨by simp only [level2Order, order2Level]; omega, Nat.two_pow_pos _⟩
      have hb0 : bitOf ⟨level2Order l - 1, 0⟩ = 2 ^ (l + 1) - 1 := by
        simp only [bitOf, level2Order, order2Level, buddyOrders]
        rw [show 5 - (5 - l - 1) = l + 1 by omega, Nat.add_zero]
      have := bitOf_inj hwa hw0 (he.trans hb0.symm)
      subst this
      refine ⟨rfl, ?_⟩
      simp only [level2Order, order2Level, buddyOrders]
      omega
  · intro hx
    obtain ⟨a, ha, hi, ho⟩ := hx
    refine ⟨hdvd, a, ha, ?_⟩
    have := (h.within_live ha).1
    simp only [bitOf, hi, level2Order, order2Level, buddyOrders] at *
    rw [show 5 - a.order = l + 1 by omega, Nat.add_zero]

/-- **`buddy_free` of the end of the arena** succeeds when the block that starts
the arena is live and is not the whole of it. -/
theorem buddyFree_end (h : Rep ar bud L A) :
    ((∃ a ∈ A, a.index = 0 ∧ a.order < buddyOrders) → (buddyFree bud (ar.page 32)).1 = 0) ∧
    ((¬ ∃ a ∈ A, a.index = 0 ∧ a.order < buddyOrders) →
      buddyFree bud (ar.page 32) = (-1, bud)) := by
  rw [buddyFree_of_page h le_rfl]
  refine ⟨?_, ?_⟩
  · intro hx
    obtain ⟨a, ha, hi, ho⟩ := hx
    -- the live block at the start is the only one, so one level answers
    have hpr : Probes bud (ar.page 32) (order2Level (a.order + 1)) := by
      refine (probes_end_iff h (l := order2Level (a.order + 1)) (Nat.sub_le _ _)).mpr
        ⟨a, ha, hi, ?_⟩
      simp only [level2Order, order2Level]
      omega
    rw [buddyFreeLevel_some bud _ _ _ (Nat.lt_succ_of_le (Nat.sub_le _ _)) hpr]
    · rfl
    · intro l' h1 h2 hpr'
      obtain ⟨c, hc, hci, hco⟩ := (probes_end_iff h (Nat.le_of_lt_succ h2)).mp hpr'
      have hcs : c.start = a.start := by simp [Block.start, hci, hi]
      have := h.tiles.unique c (Or.inr hc) a (Or.inr ha) ⟨c.start, has_start c, hcs ▸ has_start a⟩
      subst this
      simp only [level2Order, order2Level] at *
      omega
  · intro hno
    refine buddyFreeLevel_none bud _ _ (fun l hl hpr => hno ?_)
    obtain ⟨a, ha, hi, ho⟩ := (probes_end_iff h (Nat.le_of_lt_succ hl)).mp hpr
    refine ⟨a, ha, hi, ?_⟩
    simp only [level2Order, order2Level] at ho
    omega

end DataStructures.Buddy
