import DataStructures.Allocator.Buddy.Address
import Mathlib.Order.Bounds.Basic

/-!
# From bytes to orders

`SIZE_2_PAGES` rounds up in 32 bits, so the sizes of the last page below `2 ^ 32` wrap
around to no page at all, as `0` does.  `PAGES_2_ORDER` takes the order of `0` pages to be
`32`, because `x - 1` then has no leading zero.  `size2Order_le_iff` is what comes of it: up to
the largest order of the arena, the order of a request is at most `k` exactly when it is a
request of at least one byte that fits into `2 ^ k` pages.
-/

namespace DataStructures.Buddy

open Lib

/-- **`SIZE_2_PAGES` rounds up to whole pages**, modulo `2 ^ 32`. -/
theorem toNat_size2Pages (bytes : BitVec 32) :
    (size2Pages bytes).toNat = (bytes.toNat + 4095) % 2 ^ 32 / 4096 := by
  have hm : ∀ i, (BitVec.ofNat 32 pageSize - 1 : BitVec 32).getLsbD i = decide (i < 12) := by
    intro i
    rw [show (BitVec.ofNat 32 pageSize - 1 : BitVec 32) = BitVec.ofNat 32 (2 ^ 12 - 1) by decide,
      BitVec.getLsbD_ofNat, Nat.testBit_two_pow_sub_one]
    by_cases hi : i < 12
    · simp [hi, show i < 32 by omega]
    · simp [hi]
  have hadd : (bytes + BitVec.ofNat 32 pageSize - 1).toNat = (bytes.toNat + 4095) % 2 ^ 32 := by
    unfold pageSize; bv_omega
  have hpage : (BitVec.ofNat 32 pageSize).toNat = 2 ^ 12 := by decide
  rw [size2Pages, BitVec.toNat_udiv, align, toNat_and_not_low hm, hadd, hpage]
  exact Nat.mul_div_cancel _ (by decide)

/-- **`PAGES_2_ORDER` is the least exponent**, and out of range for `0` pages. -/
theorem pages2Order_le_iff (p : BitVec 32) {k : Nat} (hk : k < 32) :
    pages2Order p ≤ k ↔ 1 ≤ p.toNat ∧ p.toNat ≤ 2 ^ k := by
  have hpos := Nat.two_pow_pos k
  rw [pages2Order]
  by_cases h1 : p = 1
  · subst h1
    exact ⟨fun _ => ⟨le_rfl, hpos⟩, fun _ => Nat.zero_le k⟩
  rw [if_neg h1]
  by_cases h0 : p = 0
  · subst h0
    simp [hk]
  have hsub : (p - 1).toNat = p.toNat - 1 := by bv_omega
  have hpos' : 1 ≤ p.toNat := by bv_omega
  have hne : p - 1 ≠ 0#32 := by
    intro he
    have := congrArg BitVec.toNat he
    rw [hsub] at this
    exact h1 (BitVec.eq_of_toNat_eq (by simp at this ⊢; omega))
  -- the highest bit of `p - 1` lies between two powers of two
  have hlow := BitVec.two_pow_sub_clz_le_toNat_of_ne_zero (by decide) hne
  have hhigh := BitVec.toNat_lt_two_pow_sub_clz (x := p - 1)
  have hclz := BitVec.lt_def.mp (BitVec.clz_lt_iff_ne_zero.mpr hne)
  rw [hsub] at hlow hhigh
  constructor
  · intro hle
    have := Nat.pow_le_pow_right (show 0 < 2 by decide) hle
    omega
  · rintro ⟨_, hle⟩
    by_contra hlt
    have hexp : k ≤ 32 - 1 - (p - 1).clz.toNat := by omega
    have := Nat.pow_le_pow_right (show 0 < 2 by decide) hexp
    omega

/-- **Up to the largest order**, a request has order at most `k` when it asks for at least one
byte and fits into `2 ^ k` pages.  Whatever wraps around asks for no page and is too large. -/
theorem size2Order_le_iff (bytes : BitVec 32) {k : Nat} (hk : k ≤ buddyOrders) :
    size2Order bytes ≤ k ↔ 1 ≤ bytes.toNat ∧ bytes.toNat ≤ pageSize * 2 ^ k := by
  have hlt := bytes.isLt
  have hk' : k ≤ 5 := hk
  have hpow : 2 ^ k ≤ 2 ^ 5 := Nat.pow_le_pow_right (by decide) hk'
  rw [size2Order, pages2Order_le_iff _ (by omega), toNat_size2Pages, pageSize]
  omega

/-- **A request is served by the least order that holds it.** -/
theorem size2Order_isLeast {bytes : BitVec 32} (h1 : 1 ≤ bytes.toNat)
    (h2 : bytes.toNat ≤ buddyMem) :
    size2Order bytes ≤ buddyOrders ∧
      IsLeast {k | bytes.toNat ≤ pageSize * 2 ^ k} (size2Order bytes) := by
  have htop : size2Order bytes ≤ buddyOrders :=
    (size2Order_le_iff bytes le_rfl).mpr ⟨h1, by rwa [Nat.mul_comm]⟩
  refine ⟨htop, ((size2Order_le_iff bytes htop).mp le_rfl).2, ?_⟩
  intro k hk
  by_cases hle : k ≤ buddyOrders
  · exact (size2Order_le_iff bytes hle).mpr ⟨h1, hk⟩
  · exact le_trans htop (le_of_not_ge hle)

/-- **From bytes to an order, for every 32-bit size.**  A request of `1` to `BUDDY_MEM` bytes
looks for a block of the least order that holds it; any other comes back with NULL and leaves
the allocator as it is. -/
theorem buddyAlloc_order (bytes : BitVec 32) (fuel : Nat) (bud : BuddyT) :
    (1 ≤ bytes.toNat ∧ bytes.toNat ≤ buddyMem →
      ∃ k, IsLeast {k | bytes.toNat ≤ pageSize * 2 ^ k} k ∧ k ≤ buddyOrders ∧
        buddyAlloc fuel bud bytes = blkAlloc fuel bud k) ∧
    (¬ (1 ≤ bytes.toNat ∧ bytes.toNat ≤ buddyMem) →
      buddyAlloc fuel bud bytes = some (none, bud)) := by
  have hiff := size2Order_le_iff bytes (le_refl buddyOrders)
  rw [Nat.mul_comm, show 2 ^ buddyOrders * pageSize = buddyMem by rfl] at hiff
  constructor
  · rintro ⟨h1, h2⟩
    obtain ⟨htop, hleast⟩ := size2Order_isLeast h1 h2
    exact ⟨_, hleast, htop, if_neg (by omega)⟩
  · intro hno
    have htop : ¬ size2Order bytes ≤ buddyOrders := fun hle => hno (hiff.mp hle)
    exact if_pos (by omega)

end DataStructures.Buddy
