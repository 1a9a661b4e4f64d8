import DataStructures.Allocator.Buddy.Correct

/-!
# The allocator has no history

What the allocator holds depends on the live blocks alone, not on the calls that have led to them.

* `buddy_free_blocks`: the free blocks are the largest ones that meet no live block.
* `buddy_history_independent`: two runs that leave the same blocks live have the same mask, and the same
  blocks in each list; they refuse the same requests, and the same frees (where `buddy_free` takes the address
  behind the arena for a block, other memory has a say).
-/

namespace DataStructures.Buddy

open Lib Kdlist Block

variable {ar : Arena} {w w' : World} {L L' : Nat → List Nat}

/-! ### The free blocks -/

/-- **A block is free** exactly if it meets no live block, while the block of twice the size around it does, or
is too large. -/
theorem Inv.mem_linkedBlocks_iff (h : Inv ar w L) (x : Addr × Nat) :
    x ∈ linkedBlocks (addrLists ar L) ↔ IsBlock ar x ∧ (∀ y ∈ w.live, ¬ Meets x y) ∧
      (x.2 < buddyOrders → ∃ y ∈ w.live, Meets (blk2Buddy x.1 ar.start x.2, x.2) y) := by
  have hlive : ∀ {b : Block}, b.Within buddyOrders →
      ((∃ y ∈ w.live, Meets (ar.block b, b.order) y) ↔ ∃ a ∈ liveSet ar w.live, b.Overlap a) := by
    intro b hb
    refine ⟨?_, ?_⟩
    · rintro ⟨y, hy, hm⟩
      obtain ⟨a, ha, rfl⟩ := h.mem_iff.mp hy
      exact ⟨a, ha, (meets_block_iff ar hb ha.1).mp hm⟩
    · rintro ⟨a, ha, hov⟩
      exact ⟨_, ha.2, (meets_block_iff ar hb ha.1).mpr hov⟩
  have hblock : ∀ {b : Block}, b.Within buddyOrders →
      (b ∈ freeSet L ↔ (∀ y ∈ w.live, ¬ Meets (ar.block b, b.order) y) ∧ (b.order < buddyOrders →
        ∃ y ∈ w.live, Meets (blk2Buddy (ar.block b) ar.start b.order, b.order) y)) := by
    intro b hb
    have hnone : (∀ y ∈ w.live, ¬ Meets (ar.block b, b.order) y) ↔
        ∀ a ∈ liveSet ar w.live, ¬ b.Overlap a := by
      have hnot := not_congr (hlive hb)
      push Not at hnot
      exact hnot
    rw [h.rep.tiles.mem_iff h.rep.disjoint h.coalesced, and_iff_right hb, hnone]
    refine and_congr_right fun hno => imp_congr_right fun ho => ?_
    have hbud := hlive (within_buddy hb ho)
    rw [← ar.blk2Buddy_block hb ho, buddy_order] at hbud
    rw [hbud]
    refine exists_congr fun a => and_congr_right fun ha => ?_
    rw [parent_overlap_iff]
    exact or_iff_right (hno a ha)
  rw [mem_linkedBlocks]
  refine ⟨?_, ?_⟩
  · rintro ⟨b, hb, rfl⟩
    have hw := h.rep.within_free hb
    exact ⟨(isBlock_iff ar _).mpr ⟨b, hw, rfl⟩, (hblock hw).mp hb⟩
  · rintro ⟨hx, hfree⟩
    obtain ⟨b, hw, rfl⟩ := (isBlock_iff ar x).mp hx
    exact ⟨b, (hblock hw).mpr hfree, rfl⟩

/-- **The free blocks are the largest that meet no live block**, after every run that frees live blocks. -/
theorem buddy_free_blocks (ar : Arena) (w : World) (h : Reach ar onlyLive w) :
    ∃ lists : Nat → List Addr,
      Rings w.bud.heap {k | k ≤ buddyOrders} w.bud.freeList lists ∧ (linkedBlocks lists).Nodup ∧
      ∀ x, x ∈ linkedBlocks lists ↔ IsBlock ar x ∧ (∀ y ∈ w.live, ¬ Meets x y) ∧
        (x.2 < buddyOrders → ∃ y ∈ w.live, Meets (blk2Buddy x.1 ar.start x.2, x.2) y) := by
  obtain ⟨L, hL⟩ := reach_inv onlyLive_ok h
  refine ⟨addrLists ar L, ?_, nodup_linkedBlocks hL.rep.linked, hL.mem_linkedBlocks_iff⟩
  rw [show w.bud.freeList = ar.head from funext hL.rep.freeList_eq]
  exact hL.rep.linked

theorem buddy_free_blocks_exampleWorld : ∃ lists : Nat → List Addr,
    Rings exampleWorld.bud.heap {k | k ≤ buddyOrders} exampleWorld.bud.freeList lists ∧
    (linkedBlocks lists).Nodup ∧
    ∀ x, x ∈ linkedBlocks lists ↔ IsBlock exampleArena x ∧ (∀ y ∈ exampleWorld.live, ¬ Meets x y) ∧
      (x.2 < buddyOrders → ∃ y ∈ exampleWorld.live,
        Meets (blk2Buddy x.1 exampleArena.start x.2, x.2) y) :=
  buddy_free_blocks exampleArena exampleWorld (exampleWorld_reach _)

/-! ### Two runs -/

/-- What is returned for a free depends on the mask alone. -/
theorem buddyFree_ret_congr {bud bud' : BuddyT} (hmask : bud.treeMask = bud'.treeMask)
    (hmem : bud.mem = bud'.mem) (blk : Addr) : (buddyFree bud blk).1 = (buddyFree bud' blk).1 := by
  have hs : bud.sAligned = bud'.sAligned := congrArg pagePtrAlign hmem
  have hlevel : ∀ n, (buddyFreeLevel bud blk n).1 = (buddyFreeLevel bud' blk n).1 := by
    intro n
    induction n with
    | zero => rfl
    | succ n ih =>
      rw [buddyFreeLevel, buddyFreeLevel, hmask, hs]
      split
      · exact ih
      · split
        · rfl
        · exact ih
  rw [buddyFree, buddyFree, hs]
  split
  · rfl
  · exact hlevel _

/-- The same blocks are free. -/
theorem Inv.perm (h : Inv ar w L) (h' : Inv ar w' L') (hlive : liveSet ar w.live = liveSet ar w'.live)
    {k : Nat} (hk : k ≤ buddyOrders) : (L k).Perm (L' k) := by
  have hrep := h.rep
  rw [hlive] at hrep
  have hset : freeSet L = freeSet L' := hrep.tiles.free_unique hrep.disjoint h.coalesced h'.rep.tiles
    h'.rep.disjoint h'.coalesced
  refine (List.perm_ext_iff_of_nodup (h.rep.linked.nodup hk) (h'.rep.linked.nodup hk)).mpr fun i => ?_
  have hi : (⟨k, i⟩ : Block) ∈ freeSet L ↔ (⟨k, i⟩ : Block) ∈ freeSet L' := by rw [hset]
  exact ⟨fun hm => (hi.mp ⟨hk, hm⟩).2, fun hm => (hi.mpr ⟨hk, hm⟩).2⟩

/-- A request is refused exactly if the lists are empty from its order on. -/
theorem Inv.alloc_none_iff (h : Inv ar w L) {fuel : Nat} {bytes : BitVec 32} {r : Option Addr}
    {bud : BuddyT} (hr : buddyAlloc fuel w.bud bytes = some (r, bud)) :
    r = none ↔ ∀ k, size2Order bytes ≤ k → k ≤ buddyOrders → L k = [] := by
  have hr' := buddyAlloc_mono hr (buddyOrders + 1)
  have hfuel : buddyOrders < fuel + (buddyOrders + 1) := by omega
  rcases h.alloc bytes hfuel with ⟨b, bud', L', he, hw, ho, hno, -⟩ | ⟨he, hnil⟩
  · obtain ⟨rfl, rfl⟩ := Prod.mk.inj (Option.some.inj (he.symm.trans hr'))
    refine iff_of_false (Option.some_ne_none _) fun hnil => ?_
    obtain ⟨a, ha, hov⟩ := exists_overlap_of_empty h.rep h.coalesced hw (ho ▸ hnil)
    exact hno a ha hov
  · obtain ⟨rfl, rfl⟩ := Prod.mk.inj (Option.some.inj (he.symm.trans hr'))
    exact iff_of_true rfl hnil

/-- **No history.**  Two runs that leave the same blocks live differ in the order of the lists at most. -/
theorem buddy_history_independent (ar : Arena) (w w' : World) (h : Reach ar onlyLive w)
    (h' : Reach ar onlyLive w') (hlive : ∀ x, x ∈ w.live ↔ x ∈ w'.live) :
    w.bud.treeMask = w'.bud.treeMask ∧
    (∃ lists lists' : Nat → List Addr,
      Rings w.bud.heap {k | k ≤ buddyOrders} w.bud.freeList lists ∧
      Rings w'.bud.heap {k | k ≤ buddyOrders} w'.bud.freeList lists' ∧
      ∀ k ≤ buddyOrders, (lists k).Perm (lists' k)) ∧
    (∀ fuel fuel' bytes r r' bud bud', buddyAlloc fuel w.bud bytes = some (r, bud) →
      buddyAlloc fuel' w'.bud bytes = some (r', bud') → (r = none ↔ r' = none)) ∧
    ∀ blk, ¬ (blk = ar.start + BitVec.ofNat 64 buddyMem ∧ ∃ k < buddyOrders, (ar.start, k) ∈ w.live) →
      (buddyFree w.bud blk).1 = (buddyFree w'.bud blk).1 := by
  obtain ⟨L, hL⟩ := reach_inv onlyLive_ok h
  obtain ⟨L', hL'⟩ := reach_inv onlyLive_ok h'
  have hset : liveSet ar w.live = liveSet ar w'.live := by
    ext b
    exact and_congr_right fun _ => hlive _
  have hmask : w.bud.treeMask = w'.bud.treeMask := by
    refine BitVec.eq_of_getLsbD_eq fun bit hbit => ?_
    rw [Bool.eq_iff_iff, hL.rep.mask bit hbit, hL'.rep.mask bit hbit, hset]
  refine ⟨hmask, ⟨addrLists ar L, addrLists ar L', ?_, ?_, fun k hk => ?_⟩, ?_, fun blk _ => ?_⟩
  · rw [show w.bud.freeList = ar.head from funext hL.rep.freeList_eq]
    exact hL.rep.linked
  · rw [show w'.bud.freeList = ar.head from funext hL'.rep.freeList_eq]
    exact hL'.rep.linked
  · exact (hL.perm hL' hset hk).map _
  · intro fuel fuel' bytes r r' bud bud' hr hr'
    rw [hL.alloc_none_iff hr, hL'.alloc_none_iff hr']
    refine forall_congr' fun k => imp_congr_right fun _ => imp_congr_right fun hk => ?_
    rw [← List.length_eq_zero_iff, (hL.perm hL' hset hk).length_eq, List.length_eq_zero_iff]
  · exact buddyFree_ret_congr hmask (hL.rep.mem.trans hL'.rep.mem.symm) blk

theorem exampleWorld_isSome : (buddyAlloc 6 exampleWorld.bud 1).isSome := by decide +kernel

/-- What `buddy_alloc(1)` returns in `exampleWorld`, and the state afterwards. -/
def exampleSecond : Option Addr × BuddyT := (buddyAlloc 6 exampleWorld.bud 1).get exampleWorld_isSome

/-- `exampleWorld`, with a second page taken. -/
def exampleTwo : World := ⟨exampleSecond.2, afterAlloc exampleWorld.live 1 exampleSecond.1⟩

theorem exampleTwo_reach : Reach exampleArena onlyLive exampleTwo := by
  have halloc : buddyAlloc 6 exampleWorld.bud 1 = some (exampleSecond.1, exampleSecond.2) := by
    rw [Prod.mk.eta]
    exact (Option.some_get exampleWorld_isSome).symm
  exact .alloc (exampleWorld_reach _) halloc

theorem exampleTwo_live : exampleTwo.live = [(12288, 0), (8192, 0)] := by decide +kernel

/-- The second page is given back. -/
def exampleBack : World :=
  ⟨(buddyFree exampleTwo.bud 12288).2, afterFree exampleTwo.live 12288 (buddyFree exampleTwo.bud 12288).1⟩

theorem exampleBack_reach : Reach exampleArena onlyLive exampleBack := by
  have hlive : onlyLive exampleTwo 12288 := ⟨0, by rw [exampleTwo_live]; exact List.mem_cons_self⟩
  exact .free exampleTwo_reach hlive

theorem exampleBack_live : exampleBack.live = [(8192, 0)] := by decide +kernel

theorem buddy_history_independent_exampleBack :
    exampleWorld.bud.treeMask = exampleBack.bud.treeMask ∧
    (∃ lists lists' : Nat → List Addr,
      Rings exampleWorld.bud.heap {k | k ≤ buddyOrders} exampleWorld.bud.freeList lists ∧
      Rings exampleBack.bud.heap {k | k ≤ buddyOrders} exampleBack.bud.freeList lists' ∧
      ∀ k ≤ buddyOrders, (lists k).Perm (lists' k)) ∧
    (∀ fuel fuel' bytes r r' bud bud', buddyAlloc fuel exampleWorld.bud bytes = some (r, bud) →
      buddyAlloc fuel' exampleBack.bud bytes = some (r', bud') → (r = none ↔ r' = none)) ∧
    ∀ blk, ¬ (blk = exampleArena.start + BitVec.ofNat 64 buddyMem ∧
        ∃ k < buddyOrders, (exampleArena.start, k) ∈ exampleWorld.live) →
      (buddyFree exampleWorld.bud blk).1 = (buddyFree exampleBack.bud blk).1 :=
  buddy_history_independent exampleArena exampleWorld exampleBack (exampleWorld_reach _) exampleBack_reach
    (fun x => by rw [exampleWorld_live, exampleBack_live])

end DataStructures.Buddy
