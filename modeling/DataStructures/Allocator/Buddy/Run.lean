import DataStructures.Allocator.Buddy.Alloc
import DataStructures.Allocator.Buddy.Free

/-!
# Runs of the allocator

`World` is the allocator together with the blocks its callers hold: a block
becomes live when `buddy_alloc` returns it and stops being live when `buddy_free`
returns `0` for its address.  `Reach ar ok` are the worlds a run from
`buddy_init` reaches, in which `buddy_free` is called with the addresses `ok`
allows.  Between two calls the callers may write what they like into their own
blocks.

`Inv` is the invariant of a run: `Rep` for the live blocks, and `Coalesced`.
`reach_inv` holds for every run that never frees the one address behind the
arena, so for both kinds of run the results speak of: those that free addresses
of the arena, whatever they are, and those that free live blocks only.
-/

namespace DataStructures.Buddy

open Lib Block

/-! ### Live blocks -/

/-- The allocator and the blocks its callers hold, each with its order. -/
structure World where
  bud : BuddyT
  live : List (Addr × Nat)

/-- `a` is a byte of the block. -/
def Inside (x : Addr × Nat) (a : Addr) : Prop :=
  x.1.toNat ≤ a.toNat ∧ a.toNat < x.1.toNat + 2 ^ x.2 * pageSize

instance (x : Addr × Nat) (a : Addr) : Decidable (Inside x a) := inferInstanceAs (Decidable (_ ∧ _))

/-- The two blocks share a byte. -/
def Meets (x y : Addr × Nat) : Prop := ∃ a, Inside x a ∧ Inside y a

/-- A block of the arena, at an offset that is a multiple of its size. -/
def IsBlock (ar : Arena) (x : Addr × Nat) : Prop :=
  x.2 ≤ buddyOrders ∧ ∃ i, (i + 1) * 2 ^ x.2 ≤ 32 ∧ x.1 = ar.page (i * 2 ^ x.2)

/-- The blocks in a caller's hand after `buddy_alloc bytes` returned `r`. -/
def afterAlloc (live : List (Addr × Nat)) (bytes : BitVec 32) : Option Addr → List (Addr × Nat)
  | none => live
  | some a => (a, size2Order bytes) :: live

/-- The blocks in a caller's hand after `buddy_free blk` returned `ret`. -/
def afterFree (live : List (Addr × Nat)) (blk : Addr) (ret : Int) : List (Addr × Nat) :=
  if ret = 0 then live.filter (fun x => x.1 ≠ blk) else live

/-- The worlds a run reaches. -/
inductive Reach (ar : Arena) (ok : World → Addr → Prop) : World → Prop
  | init {m : Store Addr} {bud : BuddyT} :
      buddyInit (some ar.addr) (some ar.mem) m = some bud → Reach ar ok ⟨bud, []⟩
  | alloc {w : World} {fuel : Nat} {bytes : BitVec 32} {r : Option Addr} {bud : BuddyT} :
      Reach ar ok w → buddyAlloc fuel w.bud bytes = some (r, bud) →
      Reach ar ok ⟨bud, afterAlloc w.live bytes r⟩
  | free {w : World} {blk : Addr} : Reach ar ok w → ok w blk →
      Reach ar ok ⟨(buddyFree w.bud blk).2, afterFree w.live blk (buddyFree w.bud blk).1⟩
  | store {w : World} {m : Store Addr} : Reach ar ok w →
      (∀ a, (∀ x ∈ w.live, ¬ Inside x a) → m a = w.bud.heap a) →
      Reach ar ok ⟨{ w.bud with heap := m }, w.live⟩

/-- Frees of any address of the arena. -/
def inArena (ar : Arena) (_ : World) (blk : Addr) : Prop :=
  ar.start ≤ blk ∧ blk < ar.start + BitVec.ofNat 64 buddyMem

/-- Frees of live blocks. -/
def onlyLive (w : World) (blk : Addr) : Prop := ∃ k, (blk, k) ∈ w.live

/-! ### Blocks and addresses -/

theorem inside_block_iff (ar : Arena) {b : Block} (hb : b.Within buddyOrders) (a : Addr) :
    Inside (ar.block b, b.order) a ↔
      ar.start.toNat ≤ a.toNat ∧ b.Has ((a.toNat - ar.start.toNat) / 4096) := by
  have hs := start_lt_of_within hb
  have hp := ar.toNat_page (p := b.start) (by omega)
  rw [has_iff, Inside, Arena.block, hp, show pageSize = 4096 from rfl]
  dsimp only
  refine ⟨?_, ?_⟩
  · intro h
    obtain ⟨h1, h2⟩ := h
    refine ⟨by omega, ?_, ?_⟩
    · rw [Nat.le_div_iff_mul_le (by omega)]; omega
    · rw [Nat.div_lt_iff_lt_mul (by omega)]
      rw [Nat.add_mul]; omega
  · intro h
    obtain ⟨h1, h2, h3⟩ := h
    rw [Nat.le_div_iff_mul_le (by omega)] at h2
    rw [Nat.div_lt_iff_lt_mul (by omega), Nat.add_mul] at h3
    omega

theorem inside_page_iff (ar : Arena) {b : Block} (hb : b.Within buddyOrders) {p : Nat} (hp : p < 32) :
    Inside (ar.block b, b.order) (ar.page p) ↔ b.Has p := by
  rw [inside_block_iff ar hb, ar.toNat_page (by omega)]
  have : (ar.start.toNat + p * 4096 - ar.start.toNat) / 4096 = p := by omega
  rw [this]
  simp

theorem meets_block_iff (ar : Arena) {b c : Block} (hb : b.Within buddyOrders)
    (hc : c.Within buddyOrders) :
    Meets (ar.block b, b.order) (ar.block c, c.order) ↔ b.Overlap c := by
  refine ⟨?_, ?_⟩
  · intro h
    obtain ⟨a, h1, h2⟩ := h
    exact ⟨_, ((inside_block_iff ar hb a).mp h1).2, ((inside_block_iff ar hc a).mp h2).2⟩
  · intro h
    obtain ⟨p, h1, h2⟩ := h
    have hp : p < 32 := has_lt hb h1
    exact ⟨ar.page p, (inside_page_iff ar hb hp).mpr h1, (inside_page_iff ar hc hp).mpr h2⟩

theorem isBlock_iff (ar : Arena) (x : Addr × Nat) :
    IsBlock ar x ↔ ∃ b : Block, b.Within buddyOrders ∧ x = (ar.block b, b.order) := by
  have key : ∀ k i : Nat, k ≤ buddyOrders → ((i + 1) * 2 ^ k ≤ 32 ↔ i < 2 ^ (buddyOrders - k)) := by
    intro k i hk
    have : 32 = 2 ^ (buddyOrders - k) * 2 ^ k := by
      rw [← Nat.pow_add, Nat.sub_add_cancel hk]; rfl
    rw [this, Nat.mul_le_mul_right_iff (Nat.two_pow_pos k)]
    omega
  refine ⟨?_, ?_⟩
  · intro h
    obtain ⟨hk, i, hi, hx⟩ := h
    exact ⟨⟨x.2, i⟩, ⟨hk, (key _ _ hk).mp hi⟩, Prod.ext hx rfl⟩
  · intro h
    obtain ⟨b, hb, rfl⟩ := h
    exact ⟨hb.1, b.index, (key _ _ hb.1).mpr hb.2, rfl⟩

/-! ### The invariant -/

/-- The live blocks, as blocks of pages. -/
def liveSet (ar : Arena) (live : List (Addr × Nat)) : Set Block :=
  {b | b.Within buddyOrders ∧ (ar.block b, b.order) ∈ live}

/-- The invariant of a run. -/
structure Inv (ar : Arena) (w : World) (L : Nat → List Nat) : Prop where
  rep : Rep ar w.bud L (liveSet ar w.live)
  coalesced : Coalesced buddyOrders (freeSet L)
  isBlock : ∀ x ∈ w.live, IsBlock ar x
  nodup : w.live.Nodup

namespace Inv

variable {ar : Arena} {w : World} {L : Nat → List Nat}

theorem mem_live_iff {live : List (Addr × Nat)} (hl : ∀ x ∈ live, IsBlock ar x) {x : Addr × Nat} :
    x ∈ live ↔ ∃ b ∈ liveSet ar live, x = (ar.block b, b.order) := by
  refine ⟨?_, ?_⟩
  · intro hx
    obtain ⟨b, hb, rfl⟩ := (isBlock_iff ar x).mp (hl x hx)
    exact ⟨b, ⟨hb, hx⟩, rfl⟩
  · intro h
    obtain ⟨b, hb, rfl⟩ := h
    exact hb.2

theorem mem_iff (h : Inv ar w L) {x : Addr × Nat} :
    x ∈ w.live ↔ ∃ b ∈ liveSet ar w.live, x = (ar.block b, b.order) := mem_live_iff h.isBlock

/-- Two live blocks that start at the same address are the same. -/
theorem eq_of_start (h : Inv ar w L) {x y : Addr × Nat} (hx : x ∈ w.live) (hy : y ∈ w.live)
    (he : x.1 = y.1) : x = y := by
  obtain ⟨b, hb, rfl⟩ := h.mem_iff.mp hx
  obtain ⟨c, hc, rfl⟩ := h.mem_iff.mp hy
  have h1 := start_lt_of_within hb.1
  have h2 := start_lt_of_within hc.1
  have hs := ar.page_inj (by omega) (by omega) he
  have := h.rep.tiles.unique b (Or.inr hb) c (Or.inr hc) ⟨b.start, has_start b, hs ▸ has_start c⟩
  rw [this]

theorem init {m : Store Addr} {bud : BuddyT}
    (h : buddyInit (some ar.addr) (some ar.mem) m = some bud) : Inv ar ⟨bud, []⟩ initLists := by
  have hl : liveSet ar [] = ∅ := by
    ext b; simp [liveSet]
  refine ⟨?_, coalesced_initLists, by simp, List.nodup_nil⟩
  show Rep ar bud initLists (liveSet ar [])
  rw [hl]
  exact buddyInit_rep ar m h

/-- Taking a new block into the caller's hand. -/
theorem insertLive (h : Inv ar w L) {b : Block} (hw : b.Within buddyOrders) {bud : BuddyT}
    {L' : Nat → List Nat} (hno : ∀ a ∈ liveSet ar w.live, ¬ b.Overlap a)
    (hrep : Rep ar bud L' (insert b (liveSet ar w.live))) (hco : Coalesced buddyOrders (freeSet L')) :
    Inv ar ⟨bud, (ar.block b, b.order) :: w.live⟩ L' := by
  have hset : liveSet ar ((ar.block b, b.order) :: w.live) = insert b (liveSet ar w.live) := by
    ext c
    simp only [liveSet, List.mem_cons, Set.mem_ofPred_eq, Set.mem_insert_iff]
    refine ⟨?_, ?_⟩
    · intro hp
      obtain ⟨hc, he | hm⟩ := hp
      · rw [Prod.mk.injEq] at he
        exact Or.inl (ar.block_inj hc hw he.2 he.1)
      · exact Or.inr ⟨hc, hm⟩
    · intro hp
      rcases hp with rfl | ⟨hc, hm⟩
      · exact ⟨hw, Or.inl rfl⟩
      · exact ⟨hc, Or.inr hm⟩
  refine ⟨hset ▸ hrep, hco, ?_, ?_⟩
  · intro x hx
    rcases List.mem_cons.mp hx with rfl | hx
    · exact (isBlock_iff ar _).mpr ⟨b, hw, rfl⟩
    · exact h.isBlock x hx
  · refine List.nodup_cons.mpr ⟨fun hm => ?_, h.nodup⟩
    exact hno b ⟨hw, hm⟩ (overlap_self b)

/-- Taking a block out of the caller's hand. -/
theorem eraseLive (h : Inv ar w L) {b : Block} (hb : b ∈ liveSet ar w.live) {bud : BuddyT}
    {L' : Nat → List Nat} (hrep : Rep ar bud L' (liveSet ar w.live \ {b}))
    (hco : Coalesced buddyOrders (freeSet L')) :
    Inv ar ⟨bud, w.live.filter (fun x => x.1 ≠ ar.block b)⟩ L' := by
  have hset : liveSet ar (w.live.filter (fun x => x.1 ≠ ar.block b)) = liveSet ar w.live \ {b} := by
    ext c
    simp only [liveSet, List.mem_filter, decide_eq_true_eq, Set.mem_ofPred_eq, Set.mem_sdiff,
      Set.mem_singleton_iff]
    refine ⟨?_, ?_⟩
    · intro hp
      obtain ⟨hc, hm, hne⟩ := hp
      exact ⟨⟨hc, hm⟩, fun he => hne (he ▸ rfl)⟩
    · intro hp
      obtain ⟨⟨hc, hm⟩, hne⟩ := hp
      refine ⟨hc, hm, fun he => hne ?_⟩
      have := h.eq_of_start hm hb.2 he
      rw [Prod.mk.injEq] at this
      exact ar.block_inj hc hb.1 this.2 this.1
  refine ⟨hset ▸ hrep, hco, fun x hx => h.isBlock x (List.mem_filter.mp hx).1, h.nodup.filter _⟩

/-- **One call of `buddy_alloc`.**  It returns, with a block that met no live
block or with NULL, and in the second case nothing has changed. -/
theorem alloc (h : Inv ar w L) (bytes : BitVec 32) {fuel : Nat} (hf : buddyOrders < fuel) :
    (∃ b bud L', buddyAlloc fuel w.bud bytes = some (some (ar.block b), bud) ∧
      b.Within buddyOrders ∧ b.order = size2Order bytes ∧
      (∀ a ∈ liveSet ar w.live, ¬ b.Overlap a) ∧
      Inv ar ⟨bud, (ar.block b, size2Order bytes) :: w.live⟩ L') ∨
    (buddyAlloc fuel w.bud bytes = some (none, w.bud) ∧
      ∀ k, size2Order bytes ≤ k → k ≤ buddyOrders → L k = []) := by
  rw [buddyAlloc]
  by_cases ho : buddyOrders + 1 ≤ size2Order bytes
  · right
    rw [if_pos ho]
    exact ⟨rfl, fun k h1 h2 => by omega⟩
  · rw [if_neg ho]
    have ho' : size2Order bytes ≤ buddyOrders := by omega
    rcases blkAlloc_spec h.rep h.coalesced ho' hf with
      ⟨b, bud, L', hr, hbo, hno, hrep, hco⟩ | hnone
    · left
      have hw : b.Within buddyOrders := hrep.within_live (Set.mem_insert _ _)
      exact ⟨b, bud, L', hr, hw, hbo, hno, hbo ▸ h.insertLive hw hno hrep hco⟩
    · exact Or.inr hnone

/-- **One call of `buddy_free` on a live block.** -/
theorem freeLive (h : Inv ar w L) {b : Block} (hb : b ∈ liveSet ar w.live) :
    ∃ bud L', buddyFree w.bud (ar.block b) = (0, bud) ∧
      Rep ar bud L' (liveSet ar w.live \ {b}) ∧
      Inv ar ⟨bud, w.live.filter (fun x => x.1 ≠ ar.block b)⟩ L' := by
  obtain ⟨bud, L', hr, hrep, hco⟩ := blkFree_spec h.rep h.coalesced hb
  exact ⟨bud, L', by rw [buddyFree_live h.rep hb, hr], hrep, h.eraseLive hb hrep hco⟩

/-- **One call of `buddy_free` on anything else**, the end of the arena apart. -/
theorem freeOther (h : Inv ar w L) {blk : Addr} (hn : ∀ k, (blk, k) ∉ w.live)
    (hend : blk ≠ ar.page 32) : buddyFree w.bud blk = (-1, w.bud) :=
  buddyFree_of_not_live h.rep (fun b hb he => hn b.order (he ▸ hb.2)) hend

/-- **Callers' writes stay in their own blocks**, away from every list node. -/
theorem store (h : Inv ar w L) {m : Store Addr}
    (hm : ∀ a, (∀ x ∈ w.live, ¬ Inside x a) → m a = w.bud.heap a) :
    Inv ar ⟨{ w.bud with heap := m }, w.live⟩ L := by
  refine ⟨⟨h.rep.addr, h.rep.mem, ?_, h.rep.tiles, h.rep.disjoint, h.rep.mask⟩, h.coalesced,
    h.isBlock, h.nodup⟩
  refine h.rep.linked.congr (fun k hk a ha => hm a (fun x hx hin => ?_))
  obtain ⟨b, hb, rfl⟩ := h.mem_iff.mp hx
  have hk' : k ≤ buddyOrders := hk
  rcases List.mem_cons.mp ha with rfl | ha
  · -- a list head lies outside the arena
    obtain ⟨h1, h2⟩ := (inside_block_iff ar hb.1 _).mp hin
    have h3 := has_lt hb.1 h2
    rw [ar.toNat_head hk'] at h1 h3
    obtain ⟨h4, h5, _⟩ := ar.toNat_start_bounds
    have h6 := ar.disjoint
    have hs : sizeofBuddy = 112 := rfl
    have hbo : buddyOrders = 5 := rfl
    have hmem : buddyMem = 131072 := rfl
    simp only [hbo] at *
    omega
  · obtain ⟨i, hi, rfl⟩ := List.mem_map.mp ha
    have hf : (⟨k, i⟩ : Block) ∈ freeSet L := ⟨hk', hi⟩
    have hw := h.rep.within_free hf
    have hin' := (inside_page_iff ar hb.1 (start_lt_of_within hw)).mp hin
    exact h.rep.not_overlap hf hb ⟨_, has_start _, hin'⟩

end Inv

/-- **Every world a run reaches satisfies the invariant**, if the run frees no
address behind the arena. -/
theorem reach_inv {ar : Arena} {ok : World → Addr → Prop}
    (hok : ∀ w L blk, Inv ar w L → ok w blk → blk ≠ ar.page 32) {w : World} (h : Reach ar ok w) :
    ∃ L, Inv ar w L := by
  induction h with
  | init hi => exact ⟨_, Inv.init hi⟩
  | @alloc w fuel bytes r bud _ hr ih =>
    obtain ⟨L, hL⟩ := ih
    have hr' := buddyAlloc_mono hr (buddyOrders + 1)
    have hfuel : buddyOrders < fuel + (buddyOrders + 1) := by omega
    rcases hL.alloc bytes hfuel with
      ⟨b, bud', L', he, _, _, _, hinv⟩ | ⟨he, _⟩
    · obtain ⟨rfl, rfl⟩ := Prod.mk.inj (Option.some.inj (he.symm.trans hr'))
      exact ⟨L', hinv⟩
    · obtain ⟨rfl, rfl⟩ := Prod.mk.inj (Option.some.inj (he.symm.trans hr'))
      exact ⟨L, hL⟩
  | @free w blk _ hf ih =>
    obtain ⟨L, hL⟩ := ih
    by_cases hlive : ∃ k, (blk, k) ∈ w.live
    · obtain ⟨k, hk⟩ := hlive
      obtain ⟨b, hb, he⟩ := hL.mem_iff.mp hk
      obtain ⟨rfl, rfl⟩ := Prod.mk.inj he
      obtain ⟨bud, L', hr, _, hinv⟩ := hL.freeLive hb
      rw [hr]
      exact ⟨L', by simpa [afterFree] using hinv⟩
    · rw [hL.freeOther (fun k hk => hlive ⟨k, hk⟩) (hok w L blk hL hf)]
      exact ⟨L, by simpa [afterFree] using hL⟩
  | store _ hm ih =>
    obtain ⟨L, hL⟩ := ih
    exact ⟨L, hL.store hm⟩

end DataStructures.Buddy
