import DataStructures.Allocator.Buddy.Model
import DataStructures.Lib.Dyadic
import DataStructures.Lib.Bitmap

/-!
# Addresses, pages and bits

The allocator computes with addresses; its invariants speak of dyadic blocks of
pages.  This file is the dictionary.

* `Arena`: the two addresses `buddy_init` gets from `malloc`, with what `malloc`
  promises of them.
* `Arena.page`, `Arena.block`: the address of a page and of a block.  Different
  pages have different addresses, and none of them is a list head.
* `bitOf`: the bit of a block in the tree mask.  The children of a node in the
  mask are the halves of its block.
* `Arena.blk2Buddy_block`, `Arena.blkInLvl2Bit_page`,
  `Arena.blkInLvlAligned_page`: the pointer arithmetic of the source, on pages.
* `Arena.valid_iff`: the addresses `buddy_free` lets through are the pages
  `0 … 32`.  The last of them is the end of the arena.
-/

namespace DataStructures.Buddy

open Lib

/-! ### Page alignment -/

/-- **`PAGE_PTR_ALIGN` rounds up to a page**, when that does not leave the 64 bits. -/
theorem toNat_pagePtrAlign (x : Addr) (h : x.toNat + 4095 < 2 ^ 64) :
    (pagePtrAlign x).toNat = (x.toNat + 4095) / 4096 * 4096 := by
  have hm : ∀ i, (BitVec.ofNat 64 pageSize - 1 : Addr).getLsbD i = decide (i < 12) := by
    intro i
    rw [show (BitVec.ofNat 64 pageSize : Addr) = 1#64 <<< 12 by decide]
    exact getLsbD_low (by decide) i
  have h2 : (x + BitVec.ofNat 64 pageSize - 1).toNat = x.toNat + 4095 := by
    unfold pageSize; bv_omega
  rw [pagePtrAlign, align, toNat_and_not_low hm, h2, show 2 ^ 12 = 4096 by rfl]

/-! ### The arena -/

/-- The two allocations of `buddy_init`: neither is NULL, both lie in the address
space with one address to spare behind them, and they share no byte. -/
structure Arena where
  addr : Addr
  mem : Addr
  mem_ne : mem ≠ 0
  addr_end : addr.toNat + sizeofBuddy < 2 ^ 64
  mem_end : mem.toNat + buddyTotalMem < 2 ^ 64
  disjoint : addr.toNat + sizeofBuddy ≤ mem.toNat ∨ mem.toNat + buddyTotalMem ≤ addr.toNat

/-- An allocation at `1000` and one at `5000`: the arena then starts at `8192`. -/
def exampleArena : Arena where
  addr := 1000
  mem := 5000
  mem_ne := by decide
  addr_end := by decide
  mem_end := by decide
  disjoint := by decide

namespace Arena

variable (ar : Arena)

/-- The aligned start. -/
def start : Addr := pagePtrAlign ar.mem

/-- The address of page `p`. -/
def page (p : Nat) : Addr := ar.start + BitVec.ofNat 64 (p * pageSize)

/-- The address of a block. -/
def block (b : Block) : Addr := ar.page b.start

/-- `&bud->free_list[k]`. -/
def head (k : Nat) : Addr := headAddr ar.addr k

theorem toNat_start_bounds : ar.mem.toNat ≤ ar.start.toNat ∧
    ar.start.toNat + buddyMem ≤ ar.mem.toNat + buddyTotalMem ∧ ar.start.toNat % 4096 = 0 := by
  have h := ar.mem_end
  have ht : buddyTotalMem = 135167 := rfl
  have hm : buddyMem = 131072 := rfl
  rw [start, toNat_pagePtrAlign _ (by omega)]
  omega

theorem toNat_page {p : Nat} (hp : p ≤ 32) : (ar.page p).toNat = ar.start.toNat + p * 4096 := by
  have h := ar.mem_end
  obtain ⟨_, h2, _⟩ := ar.toNat_start_bounds
  have hm : buddyMem = 131072 := rfl
  rw [page, show pageSize = 4096 from rfl, BitVec.toNat_add, BitVec.toNat_ofNat]
  omega

theorem page_inj {p q : Nat} (hp : p ≤ 32) (hq : q ≤ 32) (h : ar.page p = ar.page q) : p = q := by
  have := congrArg BitVec.toNat h
  rw [ar.toNat_page hp, ar.toNat_page hq] at this
  omega

theorem page_zero : ar.page 0 = ar.start := by simp [page]

theorem page_sub (p : Nat) : ar.page p - ar.start = BitVec.ofNat 64 (p * pageSize) := by
  rw [page]
  bv_omega

theorem toNat_head {k : Nat} (hk : k ≤ buddyOrders) :
    (ar.head k).toNat = ar.addr.toNat + (8 + 16 * k) := by
  have h := ar.addr_end
  have hs : sizeofBuddy = 112 := rfl
  have hb : buddyOrders = 5 := rfl
  rw [head, headAddr, BitVec.toNat_add, BitVec.toNat_ofNat]
  omega

theorem head_inj {j k : Nat} (hj : j ≤ buddyOrders) (hk : k ≤ buddyOrders)
    (h : ar.head j = ar.head k) : j = k := by
  have := congrArg BitVec.toNat h
  rw [ar.toNat_head hj, ar.toNat_head hk] at this
  omega

/-- **No page of the arena is a list head.** -/
theorem page_ne_head {p k : Nat} (hp : p < 32) (hk : k ≤ buddyOrders) : ar.page p ≠ ar.head k := by
  intro h
  have := congrArg BitVec.toNat h
  rw [ar.toNat_page (by omega), ar.toNat_head hk] at this
  obtain ⟨h1, h2, _⟩ := ar.toNat_start_bounds
  have h3 := ar.disjoint
  have hs : sizeofBuddy = 112 := rfl
  have hb : buddyOrders = 5 := rfl
  have hm : buddyMem = 131072 := rfl
  omega

end Arena

theorem start_lt_of_within {b : Block} (h : b.Within buddyOrders) : b.start < 32 :=
  Block.has_lt h b.has_start

theorem block_eq_of_start {b c : Block} (ho : b.order = c.order) (h : b.start = c.start) : b = c :=
  Block.eq_of_overlap ⟨b.start, b.has_start, h ▸ c.has_start⟩ ho

namespace Arena

variable (ar : Arena)

theorem block_inj {b c : Block} (hb : b.Within buddyOrders) (hc : c.Within buddyOrders)
    (ho : b.order = c.order) (h : ar.block b = ar.block c) : b = c := by
  have hb' := start_lt_of_within hb
  have hc' := start_lt_of_within hc
  exact block_eq_of_start ho (ar.page_inj (by omega) (by omega) h)

/-- A block starts where its first half does. -/
theorem block_left (k j : Nat) : ar.block ⟨k + 1, j⟩ = ar.block ⟨k, 2 * j⟩ := by
  have : j * 2 ^ (k + 1) = 2 * j * 2 ^ k := by ring
  rw [block, block, Block.start, Block.start, this]

theorem block_lt_iff {b c : Block} (hb : b.Within buddyOrders) (hc : c.Within buddyOrders) :
    ar.block b < ar.block c ↔ b.start < c.start := by
  have hb' := start_lt_of_within hb
  have hc' := start_lt_of_within hc
  rw [BitVec.lt_def, block, block, ar.toNat_page (by omega), ar.toNat_page (by omega)]
  omega

end Arena

/-! ### The bit of a block -/

/-- The bit of a block in the tree mask. -/
def bitOf (b : Block) : Nat := 2 ^ order2Level b.order - 1 + b.index

theorem bitOf_lt {b : Block} (h : b.Within buddyOrders) : bitOf b < 63 := by
  obtain ⟨k, i⟩ := b
  obtain ⟨h1, h2⟩ := h
  simp only [buddyOrders, bitOf, order2Level] at *
  have : 2 ^ (5 - k) ≤ 2 ^ 5 := Nat.pow_le_pow_right (by omega) (by omega)
  omega

/-- A bit is the bit of one block only. -/
theorem bitOf_inj {b c : Block} (hb : b.Within buddyOrders) (hc : c.Within buddyOrders)
    (h : bitOf b = bitOf c) : b = c := by
  obtain ⟨k, i⟩ := b
  obtain ⟨j, l⟩ := c
  obtain ⟨hk, hi⟩ := hb
  obtain ⟨hj, hl⟩ := hc
  simp only [bitOf, order2Level] at *
  have level : ∀ {a b : Nat}, a < b → 2 ^ a * 2 ≤ 2 ^ b := by
    intro a b hab
    rw [← Nat.pow_succ]
    exact Nat.pow_le_pow_right (by omega) hab
  have hp := Nat.two_pow_pos (buddyOrders - k)
  have hq := Nat.two_pow_pos (buddyOrders - j)
  have hkj : k = j := by
    rcases Nat.lt_trichotomy k j with hlt | heq | hgt
    · have := level (show buddyOrders - j < buddyOrders - k by omega)
      omega
    · exact heq
    · have := level (show buddyOrders - k < buddyOrders - j by omega)
      omega
  subst hkj
  congr 1
  omega

theorem bitOf_left {b : Block} (h : b.Within buddyOrders) (ho : 0 < b.order) :
    bitOf b.left = 2 * bitOf b + 1 := by
  obtain ⟨k, i⟩ := b
  simp only [bitOf, order2Level, Block.left] at *
  have : 2 ^ (buddyOrders - (k - 1)) = 2 ^ (buddyOrders - k) * 2 := by
    rw [← Nat.pow_succ]; congr 1; have := h.1; simp only at this; omega
  have := Nat.two_pow_pos (buddyOrders - k)
  omega

theorem bitOf_right {b : Block} (h : b.Within buddyOrders) (ho : 0 < b.order) :
    bitOf b.right = 2 * bitOf b + 2 := by
  have := bitOf_left h ho
  simp only [bitOf, order2Level, Block.left, Block.right] at *
  omega

/-! ### The pointer arithmetic of the source, on pages -/

theorem xor_offset : ∀ k < 5, ∀ i < 2 ^ (5 - k),
    BitVec.ofNat 64 (i * 2 ^ k * pageSize) ^^^ ((1#64 <<< k) * BitVec.ofNat 64 pageSize) =
      BitVec.ofNat 64 ((i ^^^ 1) * 2 ^ k * pageSize) := by decide +kernel

theorem aligned_offset : ∀ p < 33, ∀ l < 6,
    (BitVec.ofNat 64 (p * pageSize) == align (BitVec.ofNat 64 (p * pageSize))
      ((1#64 <<< level2Order l) * BitVec.ofNat 64 pageSize)) = decide (2 ^ level2Order l ∣ p) := by
  decide +kernel

theorem bit_offset : ∀ p < 33, ∀ l < 6,
    (2 ^ l - 1 + (BitVec.ofNat 64 (p * pageSize)).toNat / sizeOfLevel l % 256) % 256 =
      2 ^ l - 1 + p / 2 ^ level2Order l := by decide +kernel

namespace Arena

variable (ar : Arena)

/-- **`__blk_2_buddy` computes the buddy.** -/
theorem blk2Buddy_block {b : Block} (h : b.Within buddyOrders) (ho : b.order < buddyOrders) :
    blk2Buddy (ar.block b) ar.start b.order = ar.block b.buddy := by
  have hx := xor_offset b.order ho b.index h.2
  rw [blk2Buddy, block, page_sub, show b.start = b.index * 2 ^ b.order from rfl, hx, block, page,
    show b.buddy.start = (b.index ^^^ 1) * 2 ^ b.order from rfl, BitVec.add_comm]

theorem blkInLvl2Bit_page {p l : Nat} (hp : p ≤ 32) (hl : l ≤ 5) :
    blkInLvl2Bit (ar.page p) ar.start l = 2 ^ l - 1 + p / 2 ^ level2Order l := by
  rw [blkInLvl2Bit, blkInLvl2Index, page_sub, bit_offset p (by omega) l (by omega)]

theorem blkInLvlAligned_page {p l : Nat} (hp : p ≤ 32) (hl : l ≤ 5) :
    blkInLvlAligned (ar.page p) ar.start l = decide (2 ^ level2Order l ∣ p) := by
  rw [blkInLvlAligned, page_sub, aligned_offset p (by omega) l (by omega)]

theorem blkInLvl2Bit_block {b : Block} (h : b.Within buddyOrders) :
    blkInLvl2Bit (ar.block b) ar.start (order2Level b.order) = bitOf b := by
  have hs := start_lt_of_within h
  have h1 := h.1
  rw [block, ar.blkInLvl2Bit_page (by omega) (show order2Level b.order ≤ 5 from Nat.sub_le _ _), bitOf]
  have hb : level2Order (order2Level b.order) = b.order := by
    simp only [level2Order, order2Level]; omega
  rw [hb]
  exact congrArg _ b.has_start

/-- **The addresses that pass the validation of `buddy_free`** are the pages of
the arena and its end. -/
theorem valid_iff (blk : Addr) :
    ¬ (blk = 0 ∨ blk < ar.start ∨ ar.start + BitVec.ofNat 64 buddyMem < blk ∨
        blk ≠ pagePtrAlign blk) ↔ ∃ p ≤ 32, blk = ar.page p := by
  obtain ⟨h1, h2, h3⟩ := ar.toNat_start_bounds
  have he := ar.mem_end
  have ht : buddyTotalMem = 135167 := rfl
  have hm : buddyMem = 131072 := rfl
  have hend : (ar.start + BitVec.ofNat 64 buddyMem).toNat = ar.start.toNat + 131072 := by
    rw [hm]; bv_omega
  simp only [not_or, not_not, BitVec.lt_def, not_lt, hend]
  refine ⟨?_, ?_⟩
  · intro h
    obtain ⟨_, hlo, hhi, hal⟩ := h
    have hal' := congrArg BitVec.toNat hal
    rw [toNat_pagePtrAlign _ (by omega)] at hal'
    refine ⟨(blk.toNat - ar.start.toNat) / 4096, by omega, BitVec.eq_of_toNat_eq ?_⟩
    rw [ar.toNat_page (by omega)]
    omega
  · intro h
    obtain ⟨p, hp, rfl⟩ := h
    have hpg := ar.toNat_page hp
    refine ⟨?_, by omega, by omega, ?_⟩
    · intro h0
      have hne := ar.mem_ne
      have := congrArg BitVec.toNat h0
      rw [hpg] at this
      refine hne (BitVec.eq_of_toNat_eq ?_)
      simp only [BitVec.ofNat_eq_ofNat, BitVec.toNat_ofNat, Nat.zero_mod] at this ⊢
      omega
    · apply BitVec.eq_of_toNat_eq
      rw [toNat_pagePtrAlign _ (by omega)]
      omega

end Arena

end DataStructures.Buddy
