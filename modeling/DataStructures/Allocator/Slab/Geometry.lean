import DataStructures.Allocator.Slab.Model

/-!
# Slots

`slot cache slab k` is the address of object `k` of a slab.  A slot and its red zone
lie within the page, behind the header, and different slots share no byte.  From the
address the code finds the page by masking and the index by dividing, and both ways
agree: `addr2Slab_slot` and `slot_index`.

`Sized cache` says that the sizes of a cache are the ones `slab_cache_create` computes
for objects that fit, and `IsPage` what `posix_memalign` promises of a page.
-/

namespace DataStructures.Slab

open Lib
open Buddy (Addr align pageSize)

/-! ### Sizes -/

theorem slabMemOffset_eq : slabMemOffset = 64 := by decide

theorem slabMemSize_eq : slabMemSize = 4032 := by decide

/-- **`ALIGN` rounds up to a multiple of 64.** -/
theorem alignSize_eq {x : Nat} (hx : x ≤ 4096) :
    alignSize x slabObjAlignment = (x + 63) / 64 * 64 := by
  have hm : ∀ i, (BitVec.ofNat 64 slabObjAlignment - 1).getLsbD i = decide (i < 6) :=
    fun i => getLsbD_low (k := 6) (by decide) i
  have hadd : (BitVec.ofNat 64 x + BitVec.ofNat 64 slabObjAlignment - 1).toNat = x + 63 := by
    unfold slabObjAlignment
    bv_omega
  rw [alignSize, align, toNat_and_not_low hm, hadd]
  rfl

/-- **The sizes of a cache whose objects fit into a page.** -/
structure Sized (cache : SlabCache) : Prop where
  fits : cache.objSize + redZoneSize ≤ slabMemSize
  align : cache.objSizeAlign = (cache.objSize + redZoneSize + 63) / 64 * 64
  perSlab : cache.objPerSlab = slabMemSize / cache.objSizeAlign
  full : cache.fullBytes = cache.objPerSlab / 64 % 256
  left : cache.leftBits = cache.objPerSlab % 64

namespace Sized

variable {cache : SlabCache}

theorem align_bounds (h : Sized cache) : 64 ≤ cache.objSizeAlign ∧ cache.objSizeAlign ≤ 4032 ∧
    cache.objSize + redZoneSize ≤ cache.objSizeAlign ∧ cache.objSizeAlign % 64 = 0 := by
  have hfits := h.fits
  rw [slabMemSize_eq] at hfits
  rw [h.align]
  unfold redZoneSize at *
  omega

/-- There is room for an object, and not for 64 of them. -/
theorem perSlab_bounds (h : Sized cache) : 1 ≤ cache.objPerSlab ∧ cache.objPerSlab < 64 := by
  obtain ⟨h64, hle, _, _⟩ := h.align_bounds
  rw [h.perSlab, slabMemSize_eq]
  refine ⟨?_, ?_⟩
  · rw [Nat.le_div_iff_mul_le (by omega)]
    omega
  · rw [Nat.div_lt_iff_lt_mul (by omega)]
    omega

theorem full_eq (h : Sized cache) : cache.fullBytes = 0 := by
  rw [h.full, Nat.div_eq_of_lt h.perSlab_bounds.2]

theorem left_eq (h : Sized cache) : cache.leftBits = cache.objPerSlab := by
  rw [h.left, Nat.mod_eq_of_lt h.perSlab_bounds.2]

/-- A slot ends within the page. -/
theorem slot_end (h : Sized cache) {k : Nat} (hk : k < cache.objPerSlab) :
    k * cache.objSizeAlign + cache.objSizeAlign ≤ 4032 := by
  have hmul : (k + 1) * cache.objSizeAlign ≤ cache.objPerSlab * cache.objSizeAlign :=
    Nat.mul_le_mul_right _ hk
  have hdiv : cache.objPerSlab * cache.objSizeAlign ≤ slabMemSize := by
    rw [h.perSlab]
    exact Nat.div_mul_le_self _ _
  rw [Nat.add_mul, Nat.one_mul] at hmul
  rw [slabMemSize_eq] at hdiv
  omega

end Sized

/-! ### Pages and slots -/

/-- A page, with an address to spare behind it. -/
def IsPage (slab : Addr) : Prop := slab.toNat % pageSize = 0 ∧ slab.toNat + pageSize < 2 ^ 64

/-- Object `k` of a slab. -/
def slot (cache : SlabCache) (slab : Addr) (k : Nat) : Addr :=
  slabMem slab + BitVec.ofNat 64 (k * cache.objSizeAlign)

theorem slot_eq (cache : SlabCache) (slab : Addr) (i bit : Nat) :
    slabObjAddr slab i bit cache.objSizeAlign = slot cache slab (i * 64 + bit) := rfl

theorem IsPage.toNat_slabMem {slab : Addr} (hp : IsPage slab) :
    (slabMem slab).toNat = slab.toNat + 64 := by
  have h2 := hp.2
  unfold pageSize at h2
  rw [slabMem, slabMemOffset_eq]
  bv_omega

/-- What `__slab_create` asserts of a page. -/
theorem IsPage.slabMem_mod {slab : Addr} (hp : IsPage slab) :
    (slabMem slab).toNat % slabMemOffset = 0 := by
  have h1 := hp.1
  unfold pageSize at h1
  rw [hp.toNat_slabMem, slabMemOffset_eq]
  omega

section Slots

variable {cache : SlabCache} {slab slab' : Addr} {k k' : Nat}

theorem toNat_slot (h : Sized cache) (hp : IsPage slab) (hk : k < cache.objPerSlab) :
    (slot cache slab k).toNat = slab.toNat + 64 + k * cache.objSizeAlign := by
  have hend := h.slot_end hk
  have hmem := hp.toNat_slabMem
  have h2 := hp.2
  unfold pageSize at h2
  rw [slot, BitVec.toNat_add, hmem, BitVec.toNat_ofNat, Nat.mod_eq_of_lt (by omega : _ < 2 ^ 64),
    Nat.mod_eq_of_lt (by omega)]

theorem slot_ne_zero (h : Sized cache) (hp : IsPage slab) (hk : k < cache.objPerSlab) :
    slot cache slab k ≠ 0 := by
  intro he
  have := congrArg BitVec.toNat he
  rw [toNat_slot h hp hk] at this
  change _ = 0 at this
  omega

/-- **Slots are aligned.** -/
theorem slot_aligned (h : Sized cache) (hp : IsPage slab) (hk : k < cache.objPerSlab) :
    (slot cache slab k).toNat % slabObjAlignment = 0 := by
  have hmul : k * cache.objSizeAlign % 64 = 0 := by
    rw [Nat.mul_mod, h.align_bounds.2.2.2, Nat.mul_zero, Nat.zero_mod]
  have h1 := hp.1
  unfold pageSize at h1
  rw [toNat_slot h hp hk, slabObjAlignment]
  omega

/-- **Masking finds the page of a slot.** -/
theorem addr2Slab_slot (h : Sized cache) (hp : IsPage slab) (hk : k < cache.objPerSlab) :
    addr2Slab (slot cache slab k) = slab := by
  have hm : ∀ i, (BitVec.ofNat 64 slabBlkSize - 1).getLsbD i = decide (i < 12) :=
    fun i => getLsbD_low (k := 12) (by decide) i
  have hend := h.slot_end hk
  have h64 := h.align_bounds.1
  have h1 := hp.1
  unfold pageSize at h1
  apply BitVec.eq_of_toNat_eq
  rw [addr2Slab, toNat_and_not_low hm, toNat_slot h hp hk]
  omega

theorem slot_sub (h : Sized cache) (hk : k < cache.objPerSlab) :
    (slot cache slab k - slabMem slab).toNat = k * cache.objSizeAlign := by
  have hend := h.slot_end hk
  rw [slot, BitVec.add_comm, BitVec.add_sub_cancel, BitVec.toNat_ofNat, Nat.mod_eq_of_lt (by omega)]

/-- **Dividing finds the index of a slot.** -/
theorem slot_index (h : Sized cache) (hk : k < cache.objPerSlab) :
    (slot cache slab k - slabMem slab).toNat / cache.objSizeAlign = k := by
  have h64 := h.align_bounds.1
  rw [slot_sub h hk, Nat.mul_div_cancel _ (by omega)]

theorem slot_isAddrAligned (h : Sized cache) (hp : IsPage slab) (hk : k < cache.objPerSlab) :
    slabIsAddrAligned slab (slot cache slab k) cache.objSizeAlign = true := by
  rw [slabIsAddrAligned, slot_aligned h hp hk, slot_sub h hk, Nat.mul_mod_left]
  rfl

theorem slot_isAddrInRange (h : Sized cache) (hp : IsPage slab) (hk : k < cache.objPerSlab) :
    slabIsAddrInRange slab (slot cache slab k) = true := by
  have hend := h.slot_end hk
  have h64 := h.align_bounds.1
  have h2 := hp.2
  unfold pageSize at h2
  rw [slabIsAddrInRange, Bool.and_eq_true, decide_eq_true_eq, decide_eq_true_eq, BitVec.le_def,
    BitVec.lt_def, BitVec.toNat_add, BitVec.toNat_ofNat, slabMemSize_eq, toNat_slot h hp hk,
    hp.toNat_slabMem]
  omega

/-- A slot determines its slab and its index. -/
theorem slot_inj (h : Sized cache) (hp : IsPage slab) (hp' : IsPage slab')
    (hk : k < cache.objPerSlab) (hk' : k' < cache.objPerSlab)
    (he : slot cache slab k = slot cache slab' k') : slab = slab' ∧ k = k' := by
  have hs : slab = slab' := by
    rw [← addr2Slab_slot h hp hk, he, addr2Slab_slot h hp' hk']
  subst hs
  refine ⟨rfl, ?_⟩
  rw [← slot_index h hk, he, slot_index h hk']

/-! ### Bytes -/

/-- `x` is a byte of the object at `p`, or of its red zone. -/
def Covers (cache : SlabCache) (p x : Addr) : Prop :=
  p.toNat ≤ x.toNat ∧ x.toNat < p.toNat + cache.objSize + redZoneSize

/-- **An object lies in its page, behind the header.** -/
theorem covers_slot_page (h : Sized cache) (hp : IsPage slab) (hk : k < cache.objPerSlab) {x : Addr}
    (hx : Covers cache (slot cache slab k) x) :
    slab.toNat + sizeofSlab ≤ x.toNat ∧ x.toNat < slab.toNat + slabBlkSize := by
  have hend := h.slot_end hk
  have hle := h.align_bounds.2.2.1
  obtain ⟨h1, h2⟩ := hx
  rw [toNat_slot h hp hk] at h1 h2
  have h3 : sizeofSlab = 64 := by decide
  have h4 : slabBlkSize = 4096 := rfl
  omega

/-- **Different objects share no byte.** -/
theorem slots_disjoint (h : Sized cache) (hp : IsPage slab) (hp' : IsPage slab')
    (hk : k < cache.objPerSlab) (hk' : k' < cache.objPerSlab)
    (hne : slot cache slab k ≠ slot cache slab' k') {x : Addr}
    (hx : Covers cache (slot cache slab k) x) : ¬ Covers cache (slot cache slab' k') x := by
  intro hx'
  have hle := h.align_bounds.2.2.1
  have hs : slab = slab' := by
    obtain ⟨h1, h2⟩ := covers_slot_page h hp hk hx
    obtain ⟨h3, h4⟩ := covers_slot_page h hp' hk' hx'
    have h5 := hp.1
    have h6 := hp'.1
    have h7 : slabBlkSize = 4096 := rfl
    unfold pageSize at h5 h6
    apply BitVec.eq_of_toNat_eq
    omega
  subst hs
  obtain ⟨h1, h2⟩ := hx
  obtain ⟨h3, h4⟩ := hx'
  rw [toNat_slot h hp hk] at h1 h2
  rw [toNat_slot h hp hk'] at h3 h4
  rcases Nat.lt_trichotomy k k' with hlt | rfl | hlt
  · have hmul : (k + 1) * cache.objSizeAlign ≤ k' * cache.objSizeAlign := Nat.mul_le_mul_right _ hlt
    rw [Nat.add_mul] at hmul
    omega
  · exact hne rfl
  · have hmul : (k' + 1) * cache.objSizeAlign ≤ k * cache.objSizeAlign := Nat.mul_le_mul_right _ hlt
    rw [Nat.add_mul] at hmul
    omega

/-- The address of the red zone. -/
theorem toNat_redZone (h : Sized cache) (hp : IsPage slab) (hk : k < cache.objPerSlab) :
    (slot cache slab k + BitVec.ofNat 64 cache.objSize).toNat =
      (slot cache slab k).toNat + cache.objSize := by
  have hend := h.slot_end hk
  have hle := h.align_bounds.2.2.1
  have hslot := toNat_slot h hp hk
  have h2 := hp.2
  unfold pageSize at h2
  rw [BitVec.toNat_add, BitVec.toNat_ofNat]
  omega

/-- The bytes of a red zone belong to the object before it. -/
theorem covers_redZone (h : Sized cache) (hp : IsPage slab) (hk : k < cache.objPerSlab) {x : Addr}
    (hx : (x - (slot cache slab k + BitVec.ofNat 64 cache.objSize)).toNat < 8) :
    Covers cache (slot cache slab k) x := by
  have hend := h.slot_end hk
  have hle := h.align_bounds.2.2.1
  have hslot := toNat_slot h hp hk
  have hred := toNat_redZone h hp hk
  have h2 := hp.2
  unfold pageSize at h2
  rw [BitVec.toNat_sub] at hx
  have hlt := x.isLt
  unfold Covers
  unfold redZoneSize at *
  omega

end Slots

/-! ### Red zones -/

variable {bytes bytes' : Addr → BitVec 8} {a : Addr}

/-- A word is its eight bytes. -/
theorem readU64_congr (h : ∀ x : Addr, (x - a).toNat < 8 → bytes' x = bytes x) :
    readU64 bytes' a = readU64 bytes a := by
  have hbyte : ∀ i : BitVec 64, i.toNat < 8 → bytes' (a + i) = bytes (a + i) := fun i hi =>
    h _ (by rwa [BitVec.add_comm, BitVec.add_sub_cancel])
  have h0 : bytes' a = bytes a := h a (by rw [BitVec.sub_self]; decide)
  rw [readU64, readU64, hbyte 7 (by decide), hbyte 6 (by decide), hbyte 5 (by decide),
    hbyte 4 (by decide), hbyte 3 (by decide), hbyte 2 (by decide), hbyte 1 (by decide), h0]

theorem writeU64_of_not {v : BitVec 64} {x : Addr} (hx : ¬ (x - a).toNat < 8) :
    writeU64 bytes a v x = bytes x := if_neg hx

/-- **A new red zone is intact.** -/
theorem readU64_writeU64 : readU64 (writeU64 bytes a redZoneMagic) a = redZoneMagic := by
  have hbyte : ∀ i : BitVec 64, i.toNat < 8 →
      writeU64 bytes a redZoneMagic (a + i) = (redZoneMagic >>> (8 * i.toNat)).setWidth 8 := by
    intro i hi
    rw [writeU64, BitVec.add_comm, BitVec.add_sub_cancel, if_pos hi]
  have h0 : writeU64 bytes a redZoneMagic a = (redZoneMagic >>> (8 * 0)).setWidth 8 := by
    rw [writeU64, BitVec.sub_self]
    rfl
  rw [readU64, hbyte 7 (by decide), hbyte 6 (by decide), hbyte 5 (by decide),
    hbyte 4 (by decide), hbyte 3 (by decide), hbyte 2 (by decide), hbyte 1 (by decide), h0]
  rfl

end DataStructures.Slab
