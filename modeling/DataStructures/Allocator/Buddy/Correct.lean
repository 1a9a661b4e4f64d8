import DataStructures.Allocator.Buddy.Run
import DataStructures.Lib.Count

/-!
# What the buddy allocator guarantees

The results on runs of `buddy_alloc` and `buddy_free`, in the terms of their
callers: addresses, orders, lists and bits.

* `buddy_tiles`: free and live blocks tile the arena, and the mask holds the bits
  of the live ones.
* `buddyFree_exact_iff`: `buddy_free` accepts exactly the live blocks, except
  that it also accepts the address one past the arena while a block at the start
  is live and is not the whole arena (`buddyFree_accepts_end`).
* `buddy_coalesced`: no two free buddies, hence the initial state once everything
  is freed.
* `buddyAlloc_fails_iff`: `buddy_alloc` fails exactly when every place is taken.
-/

namespace DataStructures.Buddy

open Lib Kdlist Block

variable {ar : Arena} {w : World}

theorem inArena_ok (w : World) (L : Nat → List Nat) (blk : Addr) (_ : Inv ar w L)
    (h : inArena ar w blk) : blk ≠ ar.page 32 := by
  rintro rfl
  have h1 : buddyMem = 32 * pageSize := rfl
  rw [inArena, h1] at h
  exact BitVec.lt_irrefl _ h.2

theorem onlyLive_ok (w : World) (L : Nat → List Nat) (blk : Addr) (hL : Inv ar w L)
    (h : onlyLive w blk) : blk ≠ ar.page 32 := by
  obtain ⟨k, hk⟩ := h
  obtain ⟨b, hb, he⟩ := hL.mem_iff.mp hk
  obtain ⟨rfl, rfl⟩ := Prod.mk.inj he
  have hs := start_lt_of_within hb.1
  intro he
  have := ar.page_inj (by omega) le_rfl he
  omega

/-! ### The tiling -/

/-- The blocks the six lists link, each with the order of its list. -/
def linkedBlocks (lists : Nat → List Addr) : List (Addr × Nat) :=
  (List.range (buddyOrders + 1)).flatMap (fun k => (lists k).map (fun a => (a, k)))

/-- The lists of addresses behind lists of indices. -/
def addrLists (ar : Arena) (L : Nat → List Nat) : Nat → List Addr :=
  fun k => (L k).map (fun i => ar.block ⟨k, i⟩)

theorem mem_linkedBlocks {L : Nat → List Nat} {x : Addr × Nat} :
    x ∈ linkedBlocks (addrLists ar L) ↔ ∃ b ∈ freeSet L, x = (ar.block b, b.order) := by
  simp only [linkedBlocks, addrLists, List.mem_flatMap, List.mem_range, List.mem_map]
  refine ⟨?_, ?_⟩
  · intro h
    obtain ⟨k, hk, a, ⟨i, hi, rfl⟩, rfl⟩ := h
    exact ⟨⟨k, i⟩, ⟨by simp only; omega, hi⟩, rfl⟩
  · intro h
    obtain ⟨b, hb, rfl⟩ := h
    exact ⟨b.order, by have := hb.1; omega, _, ⟨b.index, hb.2, rfl⟩, rfl⟩

theorem nodup_linkedBlocks {L : Nat → List Nat} {m : Store Addr} (h : Linked ar m L) :
    (linkedBlocks (addrLists ar L)).Nodup := by
  rw [linkedBlocks, List.nodup_flatMap]
  refine ⟨?_, ?_⟩
  · intro k hk
    have hk' : k ≤ buddyOrders := by rw [List.mem_range] at hk; omega
    refine List.Nodup.map (fun a b he => (Prod.mk.inj he).1) ?_
    exact (List.nodup_cons.mp (h.ring k hk').nodup).2
  · refine List.nodup_range.imp (fun {j k} hne x h1 h2 => ?_)
    obtain ⟨a, _, rfl⟩ := List.mem_map.mp h1
    obtain ⟨b, _, he⟩ := List.mem_map.mp h2
    exact hne (Prod.mk.inj he).2.symm

/-- `Rep` for the blocks of a list, on the bits of the mask. -/
theorem Rep.mask_live {bud : BuddyT} {L : Nat → List Nat} {live : List (Addr × Nat)}
    (h : Rep ar bud L (liveSet ar live)) (hl : ∀ x ∈ live, IsBlock ar x) {bit : Nat}
    (hbit : bit < 64) : bud.treeMask.getLsbD bit = true ↔
      ∃ x ∈ live, bit = blkInLvl2Bit x.1 ar.start (order2Level x.2) := by
  rw [h.mask bit hbit]
  refine ⟨?_, ?_⟩
  · intro hm
    obtain ⟨b, hb, rfl⟩ := hm
    exact ⟨_, hb.2, (ar.blkInLvl2Bit_block hb.1).symm⟩
  · intro hm
    obtain ⟨x, hx, rfl⟩ := hm
    obtain ⟨b, hb, rfl⟩ := (Inv.mem_live_iff hl).mp hx
    exact ⟨b, hb, (ar.blkInLvl2Bit_block hb.1).symm⟩

/-- **The partition invariant.**  After any run that frees any addresses of the
arena, six lists of addresses are linked at the six heads, forwards and
backwards; they and the live blocks are blocks of the arena at offsets that are
multiples of their size; every page lies in exactly one of them; and the bits of
the mask are the bits of the live blocks. -/
theorem buddy_tiles (ar : Arena) (w : World) (h : Reach ar (inArena ar) w) :
    ∃ lists : Nat → List Addr,
      Rings w.bud.heap {k | k ≤ buddyOrders} w.bud.freeList lists ∧
      (∀ x ∈ linkedBlocks lists ++ w.live, IsBlock ar x) ∧
      (∀ p < 32, (linkedBlocks lists ++ w.live).countP (fun x => Inside x (ar.page p)) = 1) ∧
      (∀ bit < 64, w.bud.treeMask.getLsbD bit = true ↔
        ∃ x ∈ w.live, bit = blkInLvl2Bit x.1 ar.start (order2Level x.2)) := by
  obtain ⟨L, hL⟩ := reach_inv inArena_ok h
  have hmem : ∀ x, x ∈ linkedBlocks (addrLists ar L) ++ w.live ↔
      ∃ b ∈ freeSet L ∪ liveSet ar w.live, x = (ar.block b, b.order) := by
    intro x
    rw [List.mem_append, mem_linkedBlocks, hL.mem_iff]
    simp only [Set.mem_union]
    refine ⟨?_, ?_⟩
    · intro hm
      rcases hm with ⟨b, hb, rfl⟩ | ⟨b, hb, rfl⟩
      · exact ⟨b, Or.inl hb, rfl⟩
      · exact ⟨b, Or.inr hb, rfl⟩
    · intro hm
      obtain ⟨b, hb | hb, rfl⟩ := hm
      · exact Or.inl ⟨b, hb, rfl⟩
      · exact Or.inr ⟨b, hb, rfl⟩
  refine ⟨addrLists ar L, ?_, ?_, ?_, ?_⟩
  · have he : w.bud.freeList = ar.head := funext hL.rep.freeList_eq
    rw [he]
    exact hL.rep.linked
  · intro x hx
    obtain ⟨b, hb, rfl⟩ := (hmem x).mp hx
    exact (isBlock_iff ar _).mpr ⟨b, hL.rep.tiles.within b hb, rfl⟩
  · intro p hp
    have hn : (linkedBlocks (addrLists ar L) ++ w.live).Nodup := by
      refine List.nodup_append.mpr ⟨nodup_linkedBlocks hL.rep.linked, hL.nodup, ?_⟩
      rintro x hx y hy rfl
      obtain ⟨b, hb, rfl⟩ := mem_linkedBlocks.mp hx
      obtain ⟨c, hc, he⟩ := hL.mem_iff.mp hy
      obtain ⟨h1, h2⟩ := Prod.mk.inj he
      have := ar.block_inj (hL.rep.within_free hb) hc.1 h2 h1
      exact hL.rep.not_overlap hb hc (this ▸ overlap_self b)
    obtain ⟨b, hb, hbp⟩ := hL.rep.tiles.cover p hp
    refine (countP_eq_one_iff hn).mpr ⟨_, (hmem _).mpr ⟨b, hb, rfl⟩, ?_, ?_⟩
    · rw [decide_eq_true_eq, inside_page_iff ar (hL.rep.tiles.within b hb) hp]
      exact hbp
    · intro y hy hyp
      obtain ⟨c, hc, rfl⟩ := (hmem y).mp hy
      rw [decide_eq_true_eq, inside_page_iff ar (hL.rep.tiles.within c hc) hp] at hyp
      rw [hL.rep.tiles.unique c hc b hb ⟨p, hyp, hbp⟩]
  · exact fun bit hbit => hL.rep.mask_live hL.isBlock hbit

/-! ### An example run -/

/-- The state `buddy_init` leaves in `exampleArena`. -/
def exampleInit : BuddyT :=
  (buddyInit (some exampleArena.addr) (some exampleArena.mem) (fun _ => ⟨0, 0⟩)).get rfl

theorem exampleInit_isSome : (buddyAlloc 6 exampleInit 1).isSome := by decide +kernel

/-- What `buddy_alloc(1)` returns there, and the state afterwards. -/
def exampleAlloc : Option Addr × BuddyT := (buddyAlloc 6 exampleInit 1).get exampleInit_isSome

theorem exampleAlloc_eq : buddyAlloc 6 exampleInit 1 = some (exampleAlloc.1, exampleAlloc.2) := by
  rw [Prod.mk.eta]
  exact (Option.some_get exampleInit_isSome).symm

/-- The world after `buddy_alloc(1)`: one live page, at the start of the arena. -/
def exampleWorld : World := ⟨exampleAlloc.2, afterAlloc [] 1 exampleAlloc.1⟩

theorem exampleWorld_reach (ok : World → Addr → Prop) : Reach exampleArena ok exampleWorld := by
  have h : Reach exampleArena ok ⟨exampleInit, []⟩ := .init (Option.some_get rfl).symm
  exact @Reach.alloc _ _ ⟨exampleInit, []⟩ 6 1 exampleAlloc.1 exampleAlloc.2 h exampleAlloc_eq

theorem exampleWorld_live : exampleWorld.live = [(8192, 0)] := by decide +kernel

theorem buddy_tiles_exampleWorld :
    ∃ lists : Nat → List Addr,
      Rings exampleWorld.bud.heap {k | k ≤ buddyOrders} exampleWorld.bud.freeList lists ∧
      (∀ x ∈ linkedBlocks lists ++ exampleWorld.live, IsBlock exampleArena x) ∧
      (∀ p < 32, (linkedBlocks lists ++ exampleWorld.live).countP
        (fun x => Inside x (exampleArena.page p)) = 1) ∧
      (∀ bit < 64, exampleWorld.bud.treeMask.getLsbD bit = true ↔
        ∃ x ∈ exampleWorld.live,
          bit = blkInLvl2Bit x.1 exampleArena.start (order2Level x.2)) :=
  buddy_tiles exampleArena exampleWorld (exampleWorld_reach _)

/-! ### Freeing -/

/-- `buddy_free blk` frees the live block that starts at `blk`, and that one only;
when there is none, it reports so and changes nothing. -/
def FreesExactly (ar : Arena) (w : World) (blk : Addr) : Prop :=
  (∀ k, (blk, k) ∈ w.live → (buddyFree w.bud blk).1 = 0 ∧
    ∀ bit < 64, (buddyFree w.bud blk).2.treeMask.getLsbD bit = true ↔
      ∃ x ∈ w.live, x ≠ (blk, k) ∧ bit = blkInLvl2Bit x.1 ar.start (order2Level x.2)) ∧
  ((∀ k, (blk, k) ∉ w.live) → (buddyFree w.bud blk).1 < 0 ∧ (buddyFree w.bud blk).2 = w.bud)

/-- The end of the arena is no live block. -/
theorem Inv.end_not_live {L : Nat → List Nat} (h : Inv ar w L) (k : Nat) :
    (ar.page 32, k) ∉ w.live := by
  intro hk
  exact onlyLive_ok w L _ h ⟨k, hk⟩ rfl

/-- The live blocks at the start of the arena that are not the whole of it. -/
theorem start_live_iff (ar : Arena) (w : World) :
    (∃ a ∈ liveSet ar w.live, a.index = 0 ∧ a.order < buddyOrders) ↔
      ∃ k < buddyOrders, (ar.start, k) ∈ w.live := by
  have hblk : ∀ k, ar.block ⟨k, 0⟩ = ar.start := by
    intro k
    rw [Arena.block, show (⟨k, 0⟩ : Block).start = 0 from Nat.zero_mul _, ar.page_zero]
  refine ⟨?_, ?_⟩
  · intro h
    obtain ⟨⟨k, i⟩, ha, rfl, ho⟩ := h
    exact ⟨k, ho, hblk k ▸ ha.2⟩
  · intro h
    obtain ⟨k, hk, hm⟩ := h
    exact ⟨⟨k, 0⟩, ⟨⟨hk.le, Nat.two_pow_pos _⟩, (hblk k).symm ▸ hm⟩, rfl, hk⟩

/-- **Freeing a live block** frees it with its own order. -/
theorem Inv.freesExactly_live {L : Nat → List Nat} (h : Inv ar w L) {blk : Addr} {k : Nat}
    (hk : (blk, k) ∈ w.live) : FreesExactly ar w blk := by
  obtain ⟨b, hb, he⟩ := h.mem_iff.mp hk
  obtain ⟨rfl, rfl⟩ := Prod.mk.inj he
  obtain ⟨bud, L', hr, hrep, hinv⟩ := h.freeLive hb
  rw [FreesExactly, hr]
  refine ⟨fun j hj => ⟨rfl, fun bit hbit => ?_⟩, fun hn => absurd hk (hn _)⟩
  have hj' := h.eq_of_start hj hk rfl
  rw [hj', hinv.rep.mask_live hinv.isBlock hbit]
  refine ⟨?_, ?_⟩
  · intro hm
    obtain ⟨x, hx, rfl⟩ := hm
    obtain ⟨hx1, hx2⟩ := List.mem_filter.mp hx
    rw [decide_eq_true_eq] at hx2
    exact ⟨x, hx1, fun hxe => hx2 (congrArg Prod.fst hxe), rfl⟩
  · intro hm
    obtain ⟨x, hx1, hx2, rfl⟩ := hm
    refine ⟨x, List.mem_filter.mpr ⟨hx1, ?_⟩, rfl⟩
    rw [decide_eq_true_eq]
    exact fun hxe => hx2 (h.eq_of_start hx1 hk hxe)

/-- **`buddy_free` accepts exactly the live blocks, one address apart.**  The
address behind the arena passes the range test, its bit on a level is the first
bit of the next level, and so it frees nothing exactly when no smaller block at
the start of the arena is live.  (When one is, and it is smaller than half of the
arena, the merge loop goes on from there into memory the allocator does not own.) -/
theorem buddyFree_exact_iff (ar : Arena) (w : World) (h : Reach ar onlyLive w) (blk : Addr) :
    FreesExactly ar w blk ↔
      ¬ (blk = ar.start + BitVec.ofNat 64 buddyMem ∧ ∃ k < buddyOrders, (ar.start, k) ∈ w.live) := by
  obtain ⟨L, hL⟩ := reach_inv onlyLive_ok h
  have hend : ar.start + BitVec.ofNat 64 buddyMem = ar.page 32 := rfl
  rw [hend, ← start_live_iff]
  obtain ⟨hfreed, hkept⟩ := buddyFree_end hL.rep
  constructor
  · rintro ⟨_, hf⟩ ⟨rfl, hex⟩
    have h0 := (hf hL.end_not_live).1
    rw [hfreed hex] at h0
    exact absurd h0 (lt_irrefl _)
  · intro hn
    by_cases hlive : ∃ k, (blk, k) ∈ w.live
    · obtain ⟨k, hk⟩ := hlive
      exact hL.freesExactly_live hk
    · have hno : ∀ k, (blk, k) ∉ w.live := fun k hk => hlive ⟨k, hk⟩
      have hr : buddyFree w.bud blk = (-1, w.bud) := by
        by_cases he : blk = ar.page 32
        · subst he
          exact hkept (fun hex => hn ⟨rfl, hex⟩)
        · exact hL.freeOther hno he
      rw [FreesExactly, hr]
      exact ⟨fun k hk => absurd hk (hno k), fun _ => ⟨Int.negSucc_lt_zero 0, rfl⟩⟩

theorem buddyFree_exact_iff_exampleWorld :
    FreesExactly exampleArena exampleWorld 8192 ↔
      ¬ ((8192 : Addr) = exampleArena.start + BitVec.ofNat 64 buddyMem ∧
        ∃ k < buddyOrders, (exampleArena.start, k) ∈ exampleWorld.live) :=
  buddyFree_exact_iff exampleArena exampleWorld (exampleWorld_reach _) 8192

theorem exampleHalf_isSome : (buddyAlloc 6 exampleInit 65536).isSome := by decide +kernel

/-- What `buddy_alloc(65536)` returns in the initial state, and the state afterwards. -/
def exampleHalfAlloc : Option Addr × BuddyT :=
  (buddyAlloc 6 exampleInit 65536).get exampleHalf_isSome

/-- The world after `buddy_alloc(65536)`: the lower half of the arena is live. -/
def exampleHalf : World := ⟨exampleHalfAlloc.2, afterAlloc [] 65536 exampleHalfAlloc.1⟩

theorem exampleHalf_reach (ok : World → Addr → Prop) : Reach exampleArena ok exampleHalf := by
  have h : Reach exampleArena ok ⟨exampleInit, []⟩ := .init (Option.some_get rfl).symm
  have halloc : buddyAlloc 6 exampleInit 65536 = some (exampleHalfAlloc.1, exampleHalfAlloc.2) := by
    rw [Prod.mk.eta]
    exact (Option.some_get exampleHalf_isSome).symm
  exact @Reach.alloc _ _ ⟨exampleInit, []⟩ 6 65536 exampleHalfAlloc.1 exampleHalfAlloc.2 h halloc

theorem exampleHalf_live : exampleHalf.live = [(8192, 4)] := by decide +kernel

/-- With the lower half live, `buddy_free` accepts the address behind the arena: it returns `0`, though no
live block starts there.  The bit it finds is that of level `0`, so there is no buddy to merge with. -/
theorem buddyFree_accepts_end :
    Reach exampleArena onlyLive exampleHalf ∧ exampleHalf.live = [(8192, 4)] ∧
      (buddyFree exampleHalf.bud 139264).1 = 0 ∧
      (buddyFree exampleHalf.bud 139264).2.treeMask ≠ exampleHalf.bud.treeMask ∧
      ¬ FreesExactly exampleArena exampleHalf 139264 := by
  have hlive : ∀ k, ((139264 : Addr), k) ∉ exampleHalf.live := by
    rw [exampleHalf_live]
    simp
  have hret : (buddyFree exampleHalf.bud 139264).1 = 0 := by decide +kernel
  refine ⟨exampleHalf_reach _, exampleHalf_live, hret, by decide +kernel, fun hf => ?_⟩
  have h0 := (hf.2 hlive).1
  rw [hret] at h0
  exact absurd h0 (lt_irrefl _)

/-! ### Coalescing -/

/-- **Coalescing is complete.**  Between calls no free block has its buddy free,
and once nothing is live the allocator is back in its initial state. -/
theorem buddy_coalesced (ar : Arena) (w : World) (h : Reach ar onlyLive w) :
    ∃ lists : Nat → List Addr,
      Rings w.bud.heap {k | k ≤ buddyOrders} w.bud.freeList lists ∧
      (∀ k < buddyOrders, ∀ a ∈ lists k, blk2Buddy a ar.start k ∉ lists k) ∧
      (w.live = [] → w.bud.treeMask = 0 ∧ lists buddyOrders = [ar.start] ∧
        ∀ k < buddyOrders, lists k = []) := by
  obtain ⟨L, hL⟩ := reach_inv onlyLive_ok h
  refine ⟨addrLists ar L, ?_, ?_, ?_⟩
  · rw [show w.bud.freeList = ar.head from funext hL.rep.freeList_eq]
    exact hL.rep.linked
  · intro k hk a ha hbud
    obtain ⟨i, hi, rfl⟩ := List.mem_map.mp ha
    obtain ⟨j, hj, he⟩ := List.mem_map.mp hbud
    have hi' : (⟨k, i⟩ : Block) ∈ freeSet L := ⟨hk.le, hi⟩
    have hj' : (⟨k, j⟩ : Block) ∈ freeSet L := ⟨hk.le, hj⟩
    have hw := hL.rep.within_free hi'
    rw [show blk2Buddy (ar.block ⟨k, i⟩) ar.start k = ar.block (⟨k, i⟩ : Block).buddy from
      ar.blk2Buddy_block hw hk] at he
    have := ar.block_inj (hL.rep.within_free hj') (within_buddy hw hk) rfl he
    exact hL.coalesced _ hi' hk (this ▸ hj')
  · intro hnil
    have hl : liveSet ar w.live = ∅ := by
      rw [hnil]; ext b; simp [liveSet]
    have hrep := hL.rep
    rw [hl] at hrep
    have htop : freeSet L = {⟨buddyOrders, 0⟩} :=
      hrep.tiles.free_unique hrep.disjoint hL.coalesced
        (by rw [Set.union_empty]; exact Tiles.top _) (Set.disjoint_empty _) (Tiles.coalesced_top _)
    have hmem : ∀ k i, k ≤ buddyOrders → i ∈ L k → k = buddyOrders ∧ i = 0 := by
      intro k i hk hi
      have hf : (⟨k, i⟩ : Block) ∈ freeSet L := ⟨hk, hi⟩
      rw [htop] at hf
      exact Block.mk.inj hf
    refine ⟨?_, ?_, fun k hk => ?_⟩
    · apply BitVec.eq_of_getLsbD_eq
      intro bit hbit
      rw [show (0 : BitVec 64).getLsbD bit = false from BitVec.getLsbD_zero, ← Bool.not_eq_true,
        hrep.mask bit hbit]
      rintro ⟨a, ha, _⟩
      exact ha
    · have h0 : (⟨buddyOrders, 0⟩ : Block) ∈ freeSet L := htop ▸ rfl
      have hone : L buddyOrders = [0] := by
        refine List.perm_singleton.mp ((List.perm_ext_iff_of_nodup (hrep.linked.nodup le_rfl)
          (List.nodup_singleton 0)).mpr (fun i => ?_))
        rw [List.mem_singleton]
        exact ⟨fun hi => (hmem _ i le_rfl hi).2, fun hi => hi ▸ h0.2⟩
      rw [addrLists, hone, List.map_singleton, Arena.block,
        show (⟨buddyOrders, 0⟩ : Block).start = 0 from Nat.zero_mul _, ar.page_zero]
    · rw [addrLists, List.map_eq_nil_iff, List.eq_nil_iff_forall_not_mem]
      intro i hi
      exact absurd (hmem k i hk.le hi).1 hk.ne

theorem buddy_coalesced_exampleWorld :
    ∃ lists : Nat → List Addr,
      Rings exampleWorld.bud.heap {k | k ≤ buddyOrders} exampleWorld.bud.freeList lists ∧
      (∀ k < buddyOrders, ∀ a ∈ lists k, blk2Buddy a exampleArena.start k ∉ lists k) ∧
      (exampleWorld.live = [] → exampleWorld.bud.treeMask = 0 ∧
        lists buddyOrders = [exampleArena.start] ∧ ∀ k < buddyOrders, lists k = []) :=
  buddy_coalesced exampleArena exampleWorld (exampleWorld_reach _)

/-! ### Allocating -/

/-- **`buddy_alloc` fails only when it must.**  It returns whenever the fuel
exceeds the number of orders; it returns NULL exactly when every aligned run of
`2 ^ k` pages meets a live block, and then changes nothing; otherwise it returns
such a run that met none, and that one becomes live. -/
theorem buddyAlloc_fails_iff (ar : Arena) (w : World) (h : Reach ar onlyLive w)
    (bytes : BitVec 32) :
    ∃ r bud, (∀ fuel, buddyOrders < fuel → buddyAlloc fuel w.bud bytes = some (r, bud)) ∧
      (r = none ↔ ∀ a, IsBlock ar (a, size2Order bytes) →
        ∃ x ∈ w.live, Meets (a, size2Order bytes) x) ∧
      (∀ a, r = some a → IsBlock ar (a, size2Order bytes) ∧
        (∀ x ∈ w.live, ¬ Meets (a, size2Order bytes) x) ∧
        ∀ bit < 64, bud.treeMask.getLsbD bit = true ↔
          ∃ x ∈ (a, size2Order bytes) :: w.live,
            bit = blkInLvl2Bit x.1 ar.start (order2Level x.2)) ∧
      (r = none → bud = w.bud) := by
  obtain ⟨L, hL⟩ := reach_inv onlyLive_ok h
  have hfuel : ∀ {r bud}, buddyAlloc (buddyOrders + 1) w.bud bytes = some (r, bud) →
      ∀ fuel, buddyOrders < fuel → buddyAlloc fuel w.bud bytes = some (r, bud) := by
    intro r bud hr fuel hf
    obtain ⟨n, rfl⟩ := Nat.exists_eq_add_of_lt hf
    rw [show buddyOrders + n + 1 = buddyOrders + 1 + n by omega]
    exact buddyAlloc_mono hr n
  rcases hL.alloc bytes (Nat.lt_succ_self _) with
    ⟨b, bud, L', hr, hw, hbo, hno, hinv⟩ | ⟨hr, hnil⟩
  · -- a block: it met no live block, so NULL would have been wrong
    have hblk : IsBlock ar (ar.block b, size2Order bytes) := hbo ▸ (isBlock_iff ar _).mpr ⟨b, hw, rfl⟩
    have hmeet : ∀ x ∈ w.live, ¬ Meets (ar.block b, size2Order bytes) x := by
      intro x hx hm
      obtain ⟨a, ha, rfl⟩ := hL.mem_iff.mp hx
      rw [← hbo, meets_block_iff ar hw ha.1] at hm
      exact hno a ha hm
    refine ⟨some (ar.block b), bud, hfuel hr, ⟨by simp, fun hall => ?_⟩, ?_, by simp⟩
    · obtain ⟨x, hx, hm⟩ := hall _ hblk
      exact absurd hm (hmeet x hx)
    · intro a ha
      obtain rfl := Option.some.inj ha
      exact ⟨hblk, hmeet, fun bit hbit => hinv.rep.mask_live hinv.isBlock hbit⟩
  · -- NULL: all lists from this order on are empty
    refine ⟨none, w.bud, hfuel hr, ⟨fun _ a ha => ?_, fun _ => rfl⟩, by simp, fun _ => rfl⟩
    obtain ⟨c, hc, he⟩ := (isBlock_iff ar _).mp ha
    obtain ⟨rfl, ho⟩ := Prod.mk.inj he
    obtain ⟨b, hb, hov⟩ := exists_overlap_of_empty hL.rep hL.coalesced hc (ho ▸ hnil)
    exact ⟨_, hb.2, by rw [ho]; exact (meets_block_iff ar hc hb.1).mpr hov⟩

theorem buddyAlloc_fails_iff_exampleWorld :
    ∃ r bud, (∀ fuel, buddyOrders < fuel → buddyAlloc fuel exampleWorld.bud 4096 = some (r, bud)) ∧
      (r = none ↔ ∀ a, IsBlock exampleArena (a, size2Order 4096) →
        ∃ x ∈ exampleWorld.live, Meets (a, size2Order 4096) x) ∧
      (∀ a, r = some a → IsBlock exampleArena (a, size2Order 4096) ∧
        (∀ x ∈ exampleWorld.live, ¬ Meets (a, size2Order 4096) x) ∧
        ∀ bit < 64, bud.treeMask.getLsbD bit = true ↔
          ∃ x ∈ (a, size2Order 4096) :: exampleWorld.live,
            bit = blkInLvl2Bit x.1 exampleArena.start (order2Level x.2)) ∧
      (r = none → bud = exampleWorld.bud) :=
  buddyAlloc_fails_iff exampleArena exampleWorld (exampleWorld_reach _) 4096

end DataStructures.Buddy
