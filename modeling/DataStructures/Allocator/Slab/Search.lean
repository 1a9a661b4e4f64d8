import DataStructures.Allocator.Slab.Correct

/-!
# The bitmap search for every alignment

With the alignment of the header no slab has a complete word in its bitmap, and the loop of
`__slab_alloc` over the complete words does nothing.  Here `SLAB_OBJ_ALIGNMENT` is a
parameter, and so is the split of the slots into complete words and remaining bits.

The loop skips a word when it is `0xFF`, not when all its bits are set.  So a complete word gives
out eight slots only, and a slab is used up with most of its slots free; for a word that is
all ones the lowest clear bit would not be defined.  `slabAlloc_takes_iff` says for which bitmaps
the search finds a slot.
-/

namespace DataStructures.Slab

open Lib
open Buddy (Addr align pageSize)

variable {cache : SlabCache} {a : Addr} {s : SlabT} {bitmap : List (BitVec 64)} {w : BitVec 64}
  {e full bits k objSizeAlign : Nat}

/-! ### `SLAB_OBJ_ALIGNMENT` as a parameter -/

/-- `slab->mem`. -/
def slabMemAt (alignment : Nat) (slab : Addr) : Addr :=
  slab + BitVec.ofNat 64 (alignSize slabMetadataSize alignment)

/-- The address of object `k`. -/
def slotAt (alignment : Nat) (slab : Addr) (k objSizeAlign : Nat) : Addr :=
  slabMemAt alignment slab + BitVec.ofNat 64 (k * objSizeAlign)

/-- `__slab_alloc`. -/
def slabAllocAt (alignment : Nat) (cache : SlabCache) (slab : Addr)
    (objSize objSizeAlign full bits : Nat) : Except Stop (Addr × SlabCache) := do
  let s ← cache.load slab
  assert cache (slabIsFree s || slabIsPartial s (full * 64 + bits))
  let (i, bit) ← slabAllocBit cache s.bitmap full bits
  let w ← wordAt s.bitmap i
  let cache := cache.setSlab slab
    { s with bitmap := s.bitmap.set i (w ||| (1#64 <<< bit)), count := s.count + 1 }
  let ptr := slotAt alignment slab (i * 64 + bit) objSizeAlign
  assert cache (ptr.toNat % alignment = 0)
  let redZone := ptr + BitVec.ofNat 64 objSize
  return (ptr, { cache with bytes := writeU64 cache.bytes redZone redZoneMagic })

/-- With the alignment of the header it is the function of the model. -/
theorem slabAllocAt_default : slabAllocAt slabObjAlignment = slabAlloc := rfl

/-- The word with the `e` lowest bits set, for an alignment of `2 ^ e`. -/
theorem alignment_mask (he : e < 64) (i : Nat) :
    (BitVec.ofNat 64 (2 ^ e) - 1).getLsbD i = decide (i < e) := by
  have hshift : BitVec.ofNat 64 (2 ^ e) = 1#64 <<< e := by
    rw [← BitVec.twoPow_eq]
    apply BitVec.eq_of_toNat_eq
    rw [BitVec.toNat_twoPow, BitVec.toNat_ofNat]
  rw [hshift]
  exact getLsbD_low he i

/-- A sum of addresses is aligned where its parts are. -/
theorem aligned_add {x y : Addr} (he : e ≤ 64) (hx : x.toNat % 2 ^ e = 0)
    (hy : y.toNat % 2 ^ e = 0) : (x + y).toNat % 2 ^ e = 0 := by
  rw [BitVec.toNat_add, Nat.mod_mod_of_dvd _ (Nat.pow_dvd_pow 2 he), Nat.add_mod, hx, hy]
  rfl

theorem aligned_ofNat {x : Nat} (he : e ≤ 64) (hx : x % 2 ^ e = 0) :
    (BitVec.ofNat 64 x).toNat % 2 ^ e = 0 := by
  rw [BitVec.toNat_ofNat, Nat.mod_mod_of_dvd _ (Nat.pow_dvd_pow 2 he), hx]

/-- **Slots are aligned**, in a page, if the sizes are. -/
theorem slotAt_aligned (he : e ≤ 12) (hp : a.toNat % pageSize = 0)
    (hs : objSizeAlign % 2 ^ e = 0) : (slotAt (2 ^ e) a k objSizeAlign).toNat % 2 ^ e = 0 := by
  have hpage : a.toNat % 2 ^ e = 0 :=
    Nat.mod_eq_zero_of_dvd ((Nat.pow_dvd_pow 2 he).trans (Nat.dvd_of_mod_eq_zero hp))
  have hmem : alignSize slabMetadataSize (2 ^ e) % 2 ^ e = 0 := by
    rw [alignSize, align, toNat_and_not_low (alignment_mask (by omega))]
    exact Nat.mul_mod_left _ _
  have hk : k * objSizeAlign % 2 ^ e = 0 := by
    rw [Nat.mul_mod, hs, Nat.mul_zero, Nat.zero_mod]
  exact aligned_add (by omega)
    (aligned_add (by omega) hpage (aligned_ofNat (by omega) hmem)) (aligned_ofNat (by omega) hk)

/-! ### The search -/

/-- **The words lead the search to a slot**: the first complete word other than `0xFF` is not
all ones, or all complete words are `0xFF` and one of the remaining bits is clear. -/
def LeadsToSlot (bitmap : List (BitVec 64)) (full bits : Nat) : Prop :=
  (∃ i < full, (∀ j < i, bitmap[j]? = some 0xFF) ∧
    ∃ w, bitmap[i]? = some w ∧ w ≠ 0xFF ∧ w ≠ BitVec.allOnes 64) ∨
  (∀ j < full, bitmap[j]? = some 0xFF) ∧ ∃ k < bits, bitAt bitmap (full * 64 + k) = false

/-- The loop stops at the first word that is not `0xFF`, or goes through all of them. -/
theorem slabAllocFull_cases : ∀ {n i : Nat}, i + n ≤ bitmap.length →
    (∃ j w, j < i + n ∧ (∀ x, i ≤ x → x < j → bitmap[x]? = some 0xFF) ∧ bitmap[j]? = some w ∧
      w ≠ 0xFF ∧ slabAllocFull bitmap n i = (builtinCtzll (~~~w)).map (fun bit => some (j, bit))) ∨
    (∀ x, i ≤ x → x < i + n → bitmap[x]? = some 0xFF) ∧ slabAllocFull bitmap n i = .ok none := by
  intro n
  induction n with
  | zero =>
    intro i _
    right
    refine ⟨?_, rfl⟩
    intro x h1 h2
    omega
  | succ n ih =>
    intro i hlen
    obtain ⟨w, hw⟩ : ∃ w, bitmap[i]? = some w := ⟨_, List.getElem?_eq_getElem (by omega)⟩
    by_cases h0 : w = 0xFF
    · -- the word is skipped
      have hstep : slabAllocFull bitmap (n + 1) i = slabAllocFull bitmap n (i + 1) := by
        rw [slabAllocFull, wordAt_of hw, ok_bind, if_pos h0]
      have hfirst : ∀ {x}, i ≤ x → (i + 1 ≤ x → bitmap[x]? = some 0xFF) → bitmap[x]? = some 0xFF := by
        intro x h1 h2
        rcases Nat.eq_or_lt_of_le h1 with rfl | h1
        · rw [hw, h0]
        · exact h2 h1
      rw [hstep]
      rcases @ih (i + 1) (by omega) with ⟨j, v, hj, hskip, hv, hne, hr⟩ | ⟨hskip, hr⟩
      · exact Or.inl ⟨j, v, by omega, fun x h1 h2 => hfirst h1 (fun h => hskip x h h2), hv, hne, hr⟩
      · exact Or.inr ⟨fun x h1 h2 => hfirst h1 (fun h => hskip x h (by omega)), hr⟩
    · left
      refine ⟨i, w, by omega, fun x h1 h2 => by omega, hw, h0, ?_⟩
      rw [slabAllocFull, wordAt_of hw, ok_bind, if_neg h0]
      rfl

theorem builtinCtzll_not (hw : w ≠ BitVec.allOnes 64) :
    ∃ bit, builtinCtzll (~~~w) = .ok bit ∧ bit < 64 ∧ w.getLsbD bit = false := by
  have hne : ~~~w ≠ 0 := by
    intro h
    apply hw
    rw [← BitVec.not_not (b := w), h]
    rfl
  obtain ⟨hlt, hbit⟩ := ctz_not_spec hne
  exact ⟨_, if_neg hne, hlt, hbit⟩

/-- **The search finds a clear bit**, where the words lead to one. -/
theorem LeadsToSlot.finds (cache : SlabCache) (h : LeadsToSlot bitmap full bits) (hb : bits < 64)
    (hlen : bitmap.length = (full * 64 + bits + 64 - 1) / 64) :
    ∃ i bit, slabAllocBit cache bitmap full bits = .ok (i, bit) ∧ bit < 64 ∧
      i < bitmap.length ∧ i * 64 + bit < full * 64 + bits ∧ bitAt bitmap (i * 64 + bit) = false := by
  rw [slabAllocBit]
  rcases @slabAllocFull_cases bitmap full 0 (by omega) with ⟨j, w, hj, hskip, hw, hne, hr⟩ | ⟨hskip, hr⟩
  · have hones : w ≠ BitVec.allOnes 64 := by
      rcases h with ⟨i, hi, hbefore, v, hv, hv0, hv1⟩ | ⟨hall, _⟩
      · have hij : i = j := by
          rcases Nat.lt_trichotomy i j with hlt | rfl | hlt
          · rw [hskip i (Nat.zero_le i) hlt, Option.some.injEq] at hv
            exact absurd hv.symm hv0
          · rfl
          · rw [hbefore j hlt, Option.some.injEq] at hw
            exact absurd hw.symm hne
        rw [← hij, hv, Option.some.injEq] at hw
        exact hw ▸ hv1
      · rw [hall j (by omega), Option.some.injEq] at hw
        exact absurd hw.symm hne
    obtain ⟨bit, hbit, hlt, hclear⟩ := builtinCtzll_not hones
    refine ⟨j, bit, ?_, hlt, by omega, by omega, ?_⟩
    · rw [hr, hbit]
      rfl
    · rwa [bitAt_word hw hlt]
  · rcases h with ⟨i, hi, _, w, hw, hw0, _⟩ | ⟨_, k, hk, hclear⟩
    · rw [hskip i (Nat.zero_le i) (by omega), Option.some.injEq] at hw
      exact absurd hw.symm hw0
    · have hfull : full < bitmap.length := by omega
      obtain ⟨bit, hbit, hlt, hc⟩ := @slabAllocLeft_spec cache _ _ _ _ hb hfull hk hclear
      refine ⟨full, bit, ?_, by omega, hfull, by omega, hc⟩
      rw [hr, ok_bind]
      exact hbit

/-- Without a clear bit the search in the remaining bits stops. -/
theorem slabAllocLeft_stops (hb : bits < 64) (hlen : 0 < bits → full < bitmap.length)
    (hset : ∀ k < bits, bitAt bitmap (full * 64 + k) = true) :
    slabAllocLeft cache bitmap full bits = .error (.assertion cache) := by
  by_cases h0 : bits = 0
  · subst h0
    rfl
  · obtain ⟨w, hw⟩ : ∃ w, bitmap[full]? = some w :=
      ⟨_, List.getElem?_eq_getElem (hlen (by omega))⟩
    have hmask : w &&& ((1#64 <<< bits) - 1) = (1#64 <<< bits) - 1 := by
      apply BitVec.eq_of_getLsbD_eq
      intro k _
      rw [BitVec.getLsbD_and, getLsbD_low hb]
      by_cases hk : k < bits
      · rw [← bitAt_word hw (by omega), hset k hk, Bool.true_and]
      · rw [decide_eq_false hk, Bool.and_false]
    simp only [slabAllocLeft, assert_of h0, wordAt_of hw, ok_bind, assert_not (not_not.mpr hmask)]
    rfl

/-- **Otherwise it stops**: at an assertion, or because the bit is not defined. -/
theorem slabAllocBit_stops (cache : SlabCache) (h : ¬ LeadsToSlot bitmap full bits) (hb : bits < 64)
    (hlen : bitmap.length = (full * 64 + bits + 64 - 1) / 64) :
    ∃ stop, slabAllocBit cache bitmap full bits = .error stop := by
  rw [slabAllocBit]
  rcases @slabAllocFull_cases bitmap full 0 (by omega) with ⟨j, w, hj, hskip, hw, hne, hr⟩ | ⟨hskip, hr⟩
  · by_cases hones : w = BitVec.allOnes 64
    · refine ⟨.undefined, ?_⟩
      rw [hr, hones]
      rfl
    · exact absurd (Or.inl ⟨j, by omega, fun x hx => hskip x (Nat.zero_le x) hx, w, hw, hne, hones⟩) h
  · refine ⟨.assertion cache, ?_⟩
    rw [hr, ok_bind]
    refine slabAllocLeft_stops hb (by omega) (fun k hk => ?_)
    by_contra hc
    exact h (Or.inr ⟨fun x hx => hskip x (Nat.zero_le x) (by omega), k, hk,
      Bool.eq_false_of_not_eq_true hc⟩)

/-! ### `__slab_alloc` -/

/-- **`__slab_alloc` takes a free slot**: it returns, with the address of a slot whose bit
was clear; the bit is set, and no other; there is one object more, and the other slabs are as
they were. -/
def TakesSlot (alignment : Nat) (cache : SlabCache) (a : Addr) (s : SlabT)
    (objSize objSizeAlign full bits : Nat) : Prop :=
  ∃ k cache' s', slabAllocAt alignment cache a objSize objSizeAlign full bits =
      .ok (slotAt alignment a k objSizeAlign, cache') ∧
    k < full * 64 + bits ∧ bitAt s.bitmap k = false ∧ cache'.slabs a = some s' ∧
    (∀ j, bitAt s'.bitmap j = (bitAt s.bitmap j || decide (j = k))) ∧ s'.count = s.count + 1 ∧
    ∀ b, b ≠ a → cache'.slabs b = cache.slabs b

/-- **For every alignment and every split of the slots**, `__slab_alloc` takes a free slot of a
slab that is not full exactly if its words lead the search to one. -/
theorem slabAlloc_takes_iff (e full bits : Nat) (he : e ≤ 12) (hb : bits < 64) (cache : SlabCache)
    (a : Addr) (s : SlabT) (objSize objSizeAlign : Nat) (hs : cache.slabs a = some s)
    (hp : a.toNat % pageSize = 0) (hal : objSizeAlign % 2 ^ e = 0)
    (hok : SlabOk (full * 64 + bits) s) (hfew : s.count < full * 64 + bits) :
    TakesSlot (2 ^ e) cache a s objSize objSizeAlign full bits ↔ LeadsToSlot s.bitmap full bits := by
  have hpart := isFree_or_isPartial (Nat.ne_of_lt hfew)
  constructor
  · rintro ⟨k, cache', s', hr, -⟩
    by_contra hno
    obtain ⟨stop, hstop⟩ := slabAllocBit_stops cache hno hb hok.length
    rw [slabAllocAt, load_of hs, ok_bind, assert_of hpart, ok_bind, hstop] at hr
    cases hr
  · intro hleads
    obtain ⟨i, bit, hbit, hlt, hi, hk, hclear⟩ := hleads.finds cache hb hok.length
    obtain ⟨w, hw⟩ : ∃ w, s.bitmap[i]? = some w := ⟨_, List.getElem?_eq_getElem hi⟩
    have haligned := slotAt_aligned (k := i * 64 + bit) he hp hal
    have hr : slabAllocAt (2 ^ e) cache a objSize objSizeAlign full bits =
        .ok (slotAt (2 ^ e) a (i * 64 + bit) objSizeAlign,
          { cache.setSlab a (s.take (i * 64 + bit)) with
            bytes := writeU64 cache.bytes (slotAt (2 ^ e) a (i * 64 + bit) objSizeAlign +
              BitVec.ofNat 64 objSize) redZoneMagic }) := by
      simp only [slabAllocAt, load_of hs, ok_bind, assert_of hpart, hbit, wordAt_of hw,
        assert_of haligned, set_or_eq hw hlt]
      rfl
    exact ⟨_, _, _, hr, hk, hclear, Function.update_self .., bitAt_setBit (by omega), rfl,
      fun b hb => Function.update_of_ne hb _ _⟩

/-! ### An allocation from a slab that is not full -/

/-- A cache for objects of 8 bytes at the alignment 8, with a new slab at page 4096. -/
def startCache : SlabCache :=
  { exampleCache with
    fullBytes := 3
    leftBits := 61
    objSize := 8
    objPerSlab := 253
    objSizeAlign := 16 }.setSlab 4096 ⟨slabMagic, List.replicate 4 0, 0⟩

/-- `n` calls of `__slab_alloc` for the slab at page 4096, with the sizes of `startCache`. -/
def allocations : Nat → SlabCache → Except Stop SlabCache
  | 0, cache => .ok cache
  | n + 1, cache => do
      let (_, cache) ← slabAllocAt (2 ^ 3) cache 4096 8 16 3 61
      allocations n cache

/-- The slab after 85 of them: 8 objects from each complete word, and 61 from the remaining bits. -/
def skippedSlab : SlabT := ⟨slabMagic, [0xFF, 0xFF, 0xFF, 2 ^ 61 - 1], 85⟩

theorem allocations_startCache :
    ∃ cache, allocations 85 startCache = .ok cache ∧ cache.slabs 4096 = some skippedSlab := by
  have h : (allocations 85 startCache).toOption.bind (fun cache => cache.slabs 4096) =
      some skippedSlab := by decide +kernel
  cases hr : allocations 85 startCache with
  | error stop =>
    rw [hr] at h
    cases h
  | ok cache =>
    rw [hr] at h
    exact ⟨cache, rfl, h⟩

theorem skippedSlab_ok : SlabOk (3 * 64 + 61) skippedSlab where
  magic := rfl
  length := by decide
  count := by decide +kernel
  below := by
    intro k hk
    have hlt : k < 256 := bitAt_lt hk
    have hall : ∀ k < 256, bitAt skippedSlab.bitmap k = true → k < 3 * 64 + 61 := by
      decide +kernel
    exact hall k hlt hk

theorem slabAlloc_takes_iff_skippedSlab :
    ∃ cache, allocations 85 startCache = .ok cache ∧
      (TakesSlot (2 ^ 3) cache 4096 skippedSlab 8 16 3 61 ↔ LeadsToSlot skippedSlab.bitmap 3 61) := by
  obtain ⟨cache, hr, hs⟩ := allocations_startCache
  exact ⟨cache, hr, slabAlloc_takes_iff 3 3 61 (by decide) (by decide) cache 4096 skippedSlab 8 16
    hs (by decide) (by decide) skippedSlab_ok (by decide)⟩

/-- **After 85 allocations the next one stops at an assertion**, with 168 of the 253 slots free. -/
theorem slabAlloc_skips : ∃ cache, allocations 85 startCache = .ok cache ∧
    cache.slabs 4096 = some skippedSlab ∧ SlabOk (3 * 64 + 61) skippedSlab ∧
    skippedSlab.count < 3 * 64 + 61 ∧
    slabAllocAt (2 ^ 3) cache 4096 8 16 3 61 = .error (.assertion cache) ∧
    ¬ TakesSlot (2 ^ 3) cache 4096 skippedSlab 8 16 3 61 := by
  obtain ⟨cache, hr, hs⟩ := allocations_startCache
  have hfull : slabAllocFull skippedSlab.bitmap 3 0 = .ok none := rfl
  have hset : ∀ k < 61, bitAt skippedSlab.bitmap (3 * 64 + k) = true := by decide +kernel
  have hstop : slabAllocBit cache skippedSlab.bitmap 3 61 = .error (.assertion cache) := by
    rw [slabAllocBit, hfull, ok_bind]
    exact slabAllocLeft_stops (by decide) (by decide) hset
  have hpart : slabIsFree skippedSlab || slabIsPartial skippedSlab (3 * 64 + 61) := by decide
  have hcall : slabAllocAt (2 ^ 3) cache 4096 8 16 3 61 = .error (.assertion cache) := by
    rw [slabAllocAt, load_of hs, ok_bind, assert_of hpart, ok_bind, hstop]
    rfl
  refine ⟨cache, hr, hs, skippedSlab_ok, by decide, hcall, ?_⟩
  rintro ⟨k, cache', s', h, -⟩
  rw [hcall] at h
  cases h

end DataStructures.Slab
