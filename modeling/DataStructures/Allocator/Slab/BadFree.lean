import DataStructures.Allocator.Slab.Correct

/-!
# Frees of what is not an object

`slab_cache_free` is given an address in the page of a slab that is not a live object: one in
the header, one inside an object or behind the last, or a slot that is free.  It stops at an
assertion before it has written anything (`slabCacheFree_caught`).

An address that passes the tests of range and alignment is a slot (`eq_slot_of_aligned`), if
only one for which there is no object; its bit is the last test.
-/

namespace DataStructures.Slab

open Lib
open Buddy (Addr)

variable {cache : SlabCache} {L : ListId → List Addr} {live : List Addr} {a p : Addr} {s : SlabT}

/-- The page a system hands out is not at NULL. -/
def notNull (env : Env) : Prop := env.page ≠ some 0

/-- `p` lies in the page at `a`. -/
def InPage (a p : Addr) : Prop := a.toNat ≤ p.toNat ∧ p.toNat < a.toNat + slabBlkSize

/-! ### Addresses in a page -/

theorem IsPage.addr2Slab_eq (hp : IsPage a) (hin : InPage a p) : addr2Slab p = a := by
  have hm : ∀ i, (BitVec.ofNat 64 slabBlkSize - 1).getLsbD i = decide (i < 12) :=
    fun i => getLsbD_low (k := 12) (by decide) i
  obtain ⟨h1, h2⟩ := hin
  have h3 := hp.1
  have h4 : slabBlkSize = 4096 := rfl
  unfold Buddy.pageSize at h3
  apply BitVec.eq_of_toNat_eq
  rw [addr2Slab, toNat_and_not_low hm]
  omega

/-- The test of range passes for the addresses behind the header. -/
theorem IsPage.inRange_iff (hp : IsPage a) (hin : InPage a p) :
    slabIsAddrInRange a p = true ↔ a.toNat + 64 ≤ p.toNat := by
  obtain ⟨h1, h2⟩ := hin
  have h3 := hp.2
  have h4 : slabBlkSize = 4096 := rfl
  unfold Buddy.pageSize at h3
  rw [slabIsAddrInRange, Bool.and_eq_true, decide_eq_true_eq, decide_eq_true_eq, BitVec.le_def,
    BitVec.lt_def, BitVec.toNat_add, BitVec.toNat_ofNat, slabMemSize_eq, hp.toNat_slabMem]
  omega

/-- **An address that passes the test of alignment is a slot**, and its bit is in the first
word of the bitmap. -/
theorem eq_slot_of_aligned (h : Sized cache) (hp : IsPage a) (hin : InPage a p)
    (hr : slabIsAddrInRange a p = true)
    (hal : slabIsAddrAligned a p cache.objSizeAlign = true) :
    p = slot cache a ((p - slabMem a).toNat / cache.objSizeAlign) ∧
      (p - slabMem a).toNat / cache.objSizeAlign < 64 := by
  rw [hp.inRange_iff hin] at hr
  rw [slabIsAddrAligned, Bool.and_eq_true, beq_iff_eq, beq_iff_eq] at hal
  obtain ⟨-, hal⟩ := hal
  have h64 := h.align_bounds.1
  have hmul : (p - slabMem a).toNat / cache.objSizeAlign * cache.objSizeAlign =
      (p - slabMem a).toNat := Nat.div_mul_cancel (Nat.dvd_of_mod_eq_zero hal)
  refine ⟨?_, ?_⟩
  · rw [slot, hmul, BitVec.ofNat_toNat, BitVec.setWidth_eq, BitVec.add_comm, BitVec.sub_add_cancel]
  · have hmem := hp.toNat_slabMem
    have h4 : slabBlkSize = 4096 := rfl
    obtain ⟨h1, h2⟩ := hin
    rw [Nat.div_lt_iff_lt_mul (by omega), BitVec.toNat_sub]
    omega

/-! ### The tests -/

/-- **The bit of a slot that is not a live object is clear.** -/
theorem Objects.bitAt_of_not_live (h : Objects cache live) (hs : cache.slabs a = some s) {k : Nat}
    (hk : slot cache a k ∉ live) : bitAt s.bitmap k = false := by
  rw [← Bool.not_eq_true]
  intro hbit
  exact hk ((h.live_iff _).mpr ⟨a, k, ⟨s, hs, hbit⟩, rfl⟩)

/-- `__slab_free` stops at one of its first two tests. -/
theorem Objects.slabFree_stops (h : Objects cache live) (hs : cache.slabs a = some s)
    (hin : InPage a p) (hr : slabIsAddrInRange a p = true) (hp : p ∉ live) :
    slabFree cache a p cache.objSize cache.objSizeAlign = .error (.assertion cache) := by
  have hpage := h.page a s hs
  by_cases hal : slabIsAddrAligned a p cache.objSizeAlign = true
  · obtain ⟨hslot, hlt⟩ := eq_slot_of_aligned h.sized hpage hin hr hal
    have hclear := h.bitAt_of_not_live hs (hslot ▸ hp)
    have hlen := (h.slabOk a s hs).length
    have hper := h.sized.perSlab_bounds
    obtain ⟨w, hw⟩ : ∃ w, s.bitmap[0]? = some w := ⟨_, List.getElem?_eq_getElem (by omega)⟩
    generalize hk : (p - slabMem a).toNat / cache.objSizeAlign = k at hlt hclear
    have htest : ¬ (w &&& (1#64 <<< k) != 0) = true := by
      rw [mask_test _ hlt, Bool.not_eq_true, ← bitAt_word hw hlt, Nat.zero_mul, Nat.zero_add]
      exact hclear
    simp only [slabFree, load_of hs, ok_bind, assert_of hal, hk, Nat.div_eq_of_lt hlt,
      Nat.mod_eq_of_lt hlt, wordAt_of hw, assert_not htest]
    rfl
  · simp only [slabFree, load_of hs, ok_bind, assert_not hal]
    rfl

/-- **A free of what is not a live object stops**, and nothing has been written. -/
theorem Inv.free_caught (h : Inv cache L live) (hs : cache.slabs a = some s) (ha : a ≠ 0)
    (hin : InPage a p) (hp : p ∉ live) {cpu : Int} (hcpu : IsCpu cpu) :
    slabCacheFree cache p cpu = .error (.assertion cache) := by
  have hpage := h.objects.page a s hs
  have hrange : 0 ≤ cpu ∧ cpu < maxCpus := hcpu
  have hp0 : p ≠ 0 := by
    rintro rfl
    apply ha
    apply BitVec.eq_of_toNat_eq
    exact Nat.le_zero.mp hin.1
  rw [slabCacheFree, if_neg hp0, if_neg (not_not.mpr hrange), hpage.addr2Slab_eq hin]
  simp only [load_of hs, ok_bind, assert_of (h.objects.slabOk a s hs).magic]
  by_cases hr : slabIsAddrInRange a p = true
  · rw [assert_of hr, ok_bind, h.objects.slabFree_stops hs hin hr hp]
    rfl
  · rw [assert_not hr]
    rfl

/-! ### Whole runs -/

/-- **No slab of a run lies at NULL.** -/
theorem Reach.slab_ne_null {w : World} (hstart : Inv cache (fun _ => []) [])
    (h : Reach cache notNull noShrink w) : w.cache.slabs 0 = none := by
  induction h with
  | start =>
    cases hs : cache.slabs 0 with
    | none => rfl
    | some s =>
      obtain ⟨i, _, hi⟩ := hstart.placed.mem_of_slab 0 s hs
      exact absurd hi List.not_mem_nil
  | @alloc w cpu env obj cache' hw hcpu hnull henv hr ih =>
    obtain ⟨_, L, hL⟩ := hw.inv hstart (fun _ _ hs => absurd hs id)
    rcases hL.alloc hcpu henv with ⟨a, s, k, m', L', he, hs, _⟩ | ⟨he, _⟩
    · rw [he, Except.ok.injEq, Prod.mk.injEq] at hr
      obtain ⟨-, rfl⟩ := hr
      have ha : 0 ≠ a := by
        rintro rfl
        rcases hs with hs | ⟨⟨_, hpage⟩, _⟩
        · rw [ih] at hs
          cases hs
        · exact hnull hpage
      exact (Function.update_of_ne ha _ _).trans ih
    · rw [he, Except.ok.injEq, Prod.mk.injEq] at hr
      obtain ⟨-, rfl⟩ := hr
      exact ih
  | @free w cpu p cache' hw hcpu hp hr ih =>
    obtain ⟨_, L, hL⟩ := hw.inv hstart (fun _ _ hs => absurd hs id)
    obtain ⟨a, s, k, m', L', _, hs, _, he, _⟩ := hL.free_mem hcpu hp
    rw [he, Except.ok.injEq] at hr
    subst hr
    have ha : 0 ≠ a := by
      rintro rfl
      rw [ih] at hs
      cases hs
    exact (Function.update_of_ne ha _ _).trans ih
  | write _ _ _ _ ih => exact ih
  | shrink _ _ hs => exact absurd hs id

/-- Where there is room for an object, it fits with its red zone. -/
theorem fits_of_objPerSlab {objSize : Nat} {objName : Option (List (BitVec 8))} {malloc : Bool}
    {links : Store Node} {bytes : Addr → BitVec 8}
    (hcreate : slabCacheCreate objSize objName malloc links bytes = some cache)
    (hper : 1 ≤ cache.objPerSlab) : objSize + redZoneSize ≤ slabMemSize := by
  by_contra hbig
  rw [(slabCacheCreate_unfit hcreate hbig).1] at hper
  exact absurd hper (by decide)

/-- **Double and wild frees are caught before any change.**  After every run of allocations
and frees of live objects, `slab_cache_free` of any address in the page of a slab that is not
a live object stops at an assertion, with the cache as it was. -/
theorem slabCacheFree_caught (objSize : Nat) (objName : Option (List (BitVec 8))) (malloc : Bool)
    (links : Store Node) (bytes : Addr → BitVec 8) (cache : SlabCache)
    (hcreate : slabCacheCreate objSize objName malloc links bytes = some cache)
    (hper : 1 ≤ cache.objPerSlab) (w : World) (h : Reach cache notNull noShrink w) (a p : Addr)
    (ha : w.cache.slabs a ≠ none) (hin : InPage a p) (hp : p ∉ w.live) (cpu : Int)
    (hcpu : IsCpu cpu) : slabCacheFree w.cache p cpu = .error (.assertion w.cache) := by
  have hstart := slabCacheCreate_inv hcreate (fits_of_objPerSlab hcreate hper)
  obtain ⟨_, L, hL⟩ := h.inv hstart (fun _ _ hs => absurd hs id)
  obtain ⟨s, hs⟩ := Option.ne_none_iff_exists'.mp ha
  refine hL.free_caught hs ?_ hin hp hcpu
  rintro rfl
  exact ha (h.slab_ne_null hstart)

/-- Between two live objects of one page. -/
theorem slabCacheFree_caught_exampleThree :
    slabCacheFree exampleThree 4200 1 = .error (.assertion exampleThree) := by
  have hreach : Reach exampleCache notNull noShrink ⟨exampleThree, [8256, 4224, 4160]⟩ := by
    refine exampleThree_reach ?_ ?_ ?_ <;> (unfold notNull; decide)
  have hslab : exampleThree.slabs 4096 ≠ none := by decide +kernel
  exact slabCacheFree_caught 32 _ _ _ _ exampleCache exampleCache_eq (by decide)
    ⟨exampleThree, [8256, 4224, 4160]⟩ hreach 4096 4200 hslab ⟨by decide, by decide⟩ (by decide) 1
    ⟨by decide, by decide⟩

end DataStructures.Slab
