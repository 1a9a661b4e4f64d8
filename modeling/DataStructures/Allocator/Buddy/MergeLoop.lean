import DataStructures.Allocator.Buddy.Correct

/-!
# The turns of the merge loop

`__blk_free` asks for the status of a buddy and then unlinks that buddy with
`kdlist_delete`, which reads the two pointers in the first bytes of the block.  They are list
pointers only as long as the block is linked; the status is read off bits that say nothing
about lists.

`mergeVisits` lists the turns of the loop, each with the allocator as the turn finds it, and
`blkMerge_next` says that they are the turns of `blkMerge`.  `mergeVisits_decides` goes through
them with the invariant of `blkMerge_spec`: at each the block in hand is linked, no free buddies
are left but those with the block in hand, and so the status of its buddy decides.
-/

namespace DataStructures.Buddy

open Lib Kdlist Block

variable {ar : Arena} {bud : BuddyT} {L : Nat → List Nat} {A : Set Block}

/-- A turn of the `while` loop: the allocator, `lvl`, and `bud1_addr`. -/
structure MergeTurn where
  bud : BuddyT
  lvl : Nat
  bud1 : Addr

namespace MergeTurn

/-- `order` in this turn. -/
def order (t : MergeTurn) : Nat := level2Order t.lvl

/-- `bud2_addr`. -/
def bud2 (t : MergeTurn) : Addr := blk2Buddy t.bud1 t.bud.sAligned t.order

/-- What the `switch` looks at. -/
def status (t : MergeTurn) : BlkStatus :=
  blkGetStatus t.bud.treeMask t.bud2 t.bud.sAligned t.lvl

/-- What the turn leaves behind, unless it ends the loop. -/
def next (t : MergeTurn) : Option (BuddyT × Addr) :=
  match t.status with
  | .split => none
  | .allocated => none
  | .free =>
      let heap := kdlistDelete t.bud.heap t.bud1
      let heap := kdlistDelete heap t.bud2
      let merged := if t.bud1 < t.bud2 then t.bud1 else t.bud2
      let heap := kdlistPushTail heap (t.bud.freeList (t.order + 1)) merged
      some ({ t.bud with heap := heap }, merged)

/-- The status decides whether the buddy is linked: the six lists are in order, and the buddy is
in the list of the current order if it is reported free, also after the block in hand was
unlinked, and not in it otherwise. -/
def Decides (t : MergeTurn) : Prop :=
  ∃ lists : Nat → List Addr,
    Rings t.bud.heap {k | k ≤ buddyOrders} t.bud.freeList lists ∧
    (t.status = .free → t.bud2 ∈ lists t.order ∧ t.bud1 ∈ lists t.order ∧
      ∃ lists' : Nat → List Addr,
        Rings (kdlistDelete t.bud.heap t.bud1) {k | k ≤ buddyOrders} t.bud.freeList lists' ∧
        t.bud2 ∈ lists' t.order) ∧
    (t.status = .split ∨ t.status = .allocated → t.bud2 ∉ lists t.order)

end MergeTurn

/-- The turns the loop takes from level `lvl` on. -/
def mergeVisits (bud : BuddyT) : Nat → Addr → List MergeTurn
  | 0, _ => []
  | lvl + 1, bud1 =>
      ⟨bud, lvl + 1, bud1⟩ ::
        match (⟨bud, lvl + 1, bud1⟩ : MergeTurn).next with
        | none => []
        | some (bud, merged) => mergeVisits bud lvl merged

/-- **The loop is made of these turns.** -/
theorem blkMerge_next (bud : BuddyT) (lvl : Nat) (bud1 : Addr) :
    blkMerge bud (lvl + 1) bud1 =
      match (⟨bud, lvl + 1, bud1⟩ : MergeTurn).next with
      | none => bud
      | some (bud, merged) => blkMerge bud lvl merged := by
  rw [blkMerge, MergeTurn.next, MergeTurn.status, MergeTurn.bud2, MergeTurn.order]
  cases blkGetStatus bud.treeMask (blk2Buddy bud1 bud.sAligned (level2Order (lvl + 1)))
    bud.sAligned (lvl + 1) <;> rfl

/-- The turns of the loop when `__blk_free` is called with the block. -/
def freeVisits (bud : BuddyT) (blk : Addr) (lvl : Nat) : List MergeTurn :=
  mergeVisits (released bud blk lvl) lvl blk

theorem blkFree_eq (bud : BuddyT) (blk : Addr) (lvl : Nat) :
    blkFree bud blk lvl = (0, blkMerge (released bud blk lvl) lvl blk) := rfl

section Turn

variable {b : Block} {lvl : Nat}

/-- The buddy of the block in hand, in a turn of the loop. -/
theorem turn_bud2 (h : Rep ar bud L A) (hb : b ∈ freeSet L) (hlvl : order2Level b.order = lvl + 1) :
    (⟨bud, lvl + 1, ar.block b⟩ : MergeTurn).bud2 = ar.block b.buddy := by
  obtain ⟨ho, hord, _⟩ := level_succ hlvl
  rw [MergeTurn.bud2, MergeTurn.order, hord, h.sAligned_eq, ar.blk2Buddy_block (h.within_free hb) ho]

/-- **In a turn the status is `BLK_FREE` exactly when the buddy is free.** -/
theorem turn_status (h : Rep ar bud L A) (hb : b ∈ freeSet L) (hlvl : order2Level b.order = lvl + 1)
    (hco : CoalescedBut b (freeSet L)) :
    (⟨bud, lvl + 1, ar.block b⟩ : MergeTurn).status = .free ↔ b.buddy ∈ freeSet L := by
  have hst := h.status_buddy_iff hb (level_succ hlvl).1 hco
  rw [hlvl] at hst
  rwa [MergeTurn.status, turn_bud2 h hb hlvl, h.sAligned_eq]

/-- A block is in the list of its order when it is free. -/
theorem mem_addrLists (h : Rep ar bud L A) {c : Block} (hw : c.Within buddyOrders) :
    ar.block c ∈ addrLists ar L c.order ↔ c ∈ freeSet L := by
  rw [addrLists, List.mem_map]
  refine ⟨?_, ?_⟩
  · intro hm
    obtain ⟨i, hi, he⟩ := hm
    have hf : (⟨c.order, i⟩ : Block) ∈ freeSet L := ⟨hw.1, hi⟩
    rwa [← ar.block_inj (h.within_free hf) hw rfl he]
  · exact fun hf => ⟨c.index, hf.2, rfl⟩

theorem turn_decides (h : Rep ar bud L A) (hb : b ∈ freeSet L)
    (hlvl : order2Level b.order = lvl + 1) (hco : CoalescedBut b (freeSet L)) :
    (⟨bud, lvl + 1, ar.block b⟩ : MergeTurn).Decides := by
  obtain ⟨ho, hord, _⟩ := level_succ hlvl
  have hw := within_buddy (h.within_free hb) ho
  have hst := turn_status h hb hlvl hco
  have hheads : bud.freeList = ar.head := funext h.freeList_eq
  rw [MergeTurn.Decides, turn_bud2 h hb hlvl, MergeTurn.order, hord, hheads]
  refine ⟨addrLists ar L, h.linked, ?_, ?_⟩
  · intro hs
    have hc := hst.mp hs
    refine ⟨(mem_addrLists h hw).mpr hc, (mem_addrLists h (h.within_free hb)).mpr hb, ?_⟩
    obtain ⟨l, r, hL⟩ := List.append_of_mem hb.2
    have hdel := h.linked.delete hb.1 hL
    have hmem : b.buddy ∈ freeSet (Function.update L b.order (l ++ r)) := by
      rw [freeSet_erase hL (h.linked.nodup hb.1)]
      exact ⟨hc, buddy_ne b⟩
    exact ⟨addrLists ar (Function.update L b.order (l ++ r)), hdel,
      List.mem_map.mpr ⟨b.buddy.index, hmem.2, rfl⟩⟩
  · intro hs hm
    have hf := hst.mpr ((mem_addrLists h hw).mp hm)
    rcases hs with hs | hs
    · rw [hs] at hf; exact absurd hf (by decide)
    · rw [hs] at hf; exact absurd hf (by decide)

/-- What a turn leaves behind when the buddy is free: the parent is in hand. -/
theorem turn_next (h : Rep ar bud L A) (hb : b ∈ freeSet L) (hlvl : order2Level b.order = lvl + 1)
    (hco : CoalescedBut b (freeSet L)) {bud' : BuddyT} {merged : Addr}
    (hn : (⟨bud, lvl + 1, ar.block b⟩ : MergeTurn).next = some (bud', merged)) :
    ∃ L', Rep ar bud' L' A ∧ merged = ar.block b.parent ∧ b.parent ∈ freeSet L' ∧
      CoalescedBut b.parent (freeSet L') := by
  obtain ⟨ho, hord, _⟩ := level_succ hlvl
  have hst := turn_status h hb hlvl hco
  rw [MergeTurn.next] at hn
  cases hs : (⟨bud, lvl + 1, ar.block b⟩ : MergeTurn).status with
  | split | allocated => rw [hs] at hn; exact absurd hn (by simp)
  | free =>
    rw [hs] at hn
    obtain ⟨L', hrep, hF⟩ := h.merge hb (hst.mp hs) ho
    have hbud2 := turn_bud2 h hb hlvl
    simp only [hbud2, min_block ar (h.within_free hb) ho, MergeTurn.order, hord, h.freeList_eq,
      Option.some.injEq, Prod.mk.injEq] at hn
    obtain ⟨rfl, rfl⟩ := hn
    refine ⟨L', hrep, rfl, ?_, ?_⟩
    · rw [hF]; exact Set.mem_insert _ _
    · rw [hF]; exact hco.parent

end Turn

/-- **Every turn of the loop decides**, by induction on the level. -/
theorem mergeVisits_decides : ∀ (lvl : Nat) {bud : BuddyT} {L : Nat → List Nat} {b : Block},
    Rep ar bud L A → b ∈ freeSet L → order2Level b.order = lvl → CoalescedBut b (freeSet L) →
    ∀ t ∈ mergeVisits bud lvl (ar.block b), t.Decides := by
  intro lvl
  induction lvl with
  | zero => intro bud L b _ _ _ _ t ht; exact absurd ht (by simp [mergeVisits])
  | succ lvl ih =>
    intro bud L b h hb hlvl hco t ht
    rw [mergeVisits, List.mem_cons] at ht
    rcases ht with rfl | ht
    · exact turn_decides h hb hlvl hco
    · cases hn : (⟨bud, lvl + 1, ar.block b⟩ : MergeTurn).next with
      | none => rw [hn] at ht; exact absurd ht (by simp)
      | some x =>
        obtain ⟨bud', merged⟩ := x
        rw [hn] at ht
        obtain ⟨L', hrep, rfl, hp, hco'⟩ := turn_next h hb hlvl hco hn
        exact ih hrep hp (level_succ hlvl).2.2 hco' t ht

/-- **The merge loop unlinks linked blocks only.**  In every state a run of allocations and frees
of live blocks reaches, `buddy_free` of a live block runs `__blk_free` at the level of its order,
and in every turn of the loop there the buddy is in the list of the current order if its status
is `BLK_FREE`, and is not if the status is another. -/
theorem blkFree_turns_decide (ar : Arena) (w : World) (h : Reach ar onlyLive w) (blk : Addr)
    (k : Nat) (hk : (blk, k) ∈ w.live) :
    buddyFree w.bud blk = blkFree w.bud blk (order2Level k) ∧
      ∀ t ∈ freeVisits w.bud blk (order2Level k), t.Decides := by
  obtain ⟨L, hL⟩ := reach_inv onlyLive_ok h
  obtain ⟨b, hb, he⟩ := hL.mem_iff.mp hk
  obtain ⟨rfl, rfl⟩ := Prod.mk.inj he
  refine ⟨buddyFree_live hL.rep hb, ?_⟩
  obtain ⟨L', hrep, hbF, hbut⟩ := hL.rep.release hL.coalesced hb
  exact mergeVisits_decides _ hrep hbF rfl hbut

theorem blkFree_turns_decide_exampleWorld :
    buddyFree exampleWorld.bud 8192 = blkFree exampleWorld.bud 8192 (order2Level 0) ∧
      ∀ t ∈ freeVisits exampleWorld.bud 8192 (order2Level 0), t.Decides :=
  blkFree_turns_decide exampleArena exampleWorld (exampleWorld_reach _) 8192 0
    (by rw [exampleWorld_live]; exact List.mem_singleton_self _)

end DataStructures.Buddy
