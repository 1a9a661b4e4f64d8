import DataStructures.Allocator.Slab.Calls

/-!
# Allocating and freeing

`Inv.alloc`: on a cache that satisfies the invariant `slab_cache_alloc` returns, with
a free slot of a slab that was there, or of a new one when the CPU has no other, or
with NULL when the system has refused a new slab.  `Inv.free`: `slab_cache_free` of a
live object returns, and only the bit of the object is cleared.  No assertion fails,
and the invariant holds afterwards.
-/

namespace DataStructures.Slab

open Lib Kdlist
open Buddy (Addr)

variable {cache : SlabCache} {L : ListId → List Addr} {live : List Addr} {a : Addr} {s : SlabT}
  {k n : Nat} {env : Env}

/-- The page the system hands out is one, and nothing is in it. -/
def Env.Fresh (env : Env) (cache : SlabCache) : Prop :=
  ∀ a, env.page = some a → IsPage a ∧ cache.slabs a = none

theorem fresh_some {calloc : Bool} (hp : IsPage a) (hnone : cache.slabs a = none) :
    Env.Fresh ⟨some a, calloc⟩ cache := by
  intro b hb
  rw [Option.some.injEq] at hb
  exact hb ▸ ⟨hp, hnone⟩

theorem fresh_none {calloc : Bool} : Env.Fresh ⟨none, calloc⟩ cache := fun _ hb => nomatch hb

/-- The slab after one more slot has been taken. -/
theorem load_taken (cache : SlabCache) (a : Addr) (s : SlabT) (k : Nat) :
    (taken cache a s k).load a = .ok (s.take k) :=
  load_of (Function.update_self ..)

theorem load_givenBack (cache : SlabCache) (a : Addr) (s : SlabT) (k : Nat) :
    (givenBack cache a s k).load a = .ok (s.giveBack k) :=
  load_of (Function.update_self ..)

theorem fits_listAfterAlloc {t : SlabT} (h : t.count ≠ 0) :
    Fits cache.objPerSlab t (listAfterAlloc t cache.objPerSlab) := by
  rw [listAfterAlloc, slabIsFull]
  by_cases hf : t.count = cache.objPerSlab
  · rw [if_pos (beq_iff_eq.mpr hf)]
    exact hf
  · rw [if_neg (fun hb => hf (beq_iff_eq.mp hb))]
    exact ⟨h, hf⟩

/-- Taking a slot of a slab that is, or comes to be, in list `j`. -/
theorem Inv.take (h : Inv cache L live) (hs : cache.slabs a = some s) (hk : k < cache.objPerSlab)
    (hc : bitAt s.bitmap k = false) {m' : Store Node} {L' : ListId → List Addr} {j : ListId}
    (hl : Linked m' L') (hj : j ∈ inCache)
    (hf : Fits cache.objPerSlab (s.take k) j.2)
    (hm : ∀ i ∈ inCache, ∀ b, b ∈ L' i ↔ if b = a then i = j else b ∈ L i) :
    Inv { taken cache a s k with links := m' } L' (slot cache a k :: live) :=
  ⟨h.placed.update hl rfl rfl hj hf hm, h.objects.take hs hk hc m'⟩

/-- Slot `k` of the slab `s` at `a` was free and has been taken. -/
structure Took (cache : SlabCache) (live : List Addr) (a : Addr) (s : SlabT) (k : Nat)
    (m' : Store Node) (L' : ListId → List Addr) : Prop where
  page : IsPage a
  lt : k < cache.objPerSlab
  clear : bitAt s.bitmap k = false
  ok : SlabOk cache.objPerSlab s
  inv : Inv { taken cache a s k with links := m' } L' (slot cache a k :: live)

/-! ### A new slab -/

theorem slabCreate_fail (henv : env.Fresh cache) (hf : env.page = none ∨ env.calloc = false)
    (size : Nat) : slabCreate cache env size = .ok (none, cache) := by
  rw [slabCreate]
  cases hpage : env.page with
  | none => rfl
  | some a =>
    have hmem := (henv a hpage).1.slabMem_mod
    have hcalloc : env.calloc = false := hf.resolve_left (by rw [hpage]; exact Option.some_ne_none a)
    simp only [assert_of hmem, ok_bind, hcalloc, Bool.not_false, if_true]
    rfl

theorem slabCreate_ok (hp : IsPage a) (hpage : env.page = some a) (hcalloc : env.calloc = true) :
    slabCreate cache env ((cache.objPerSlab + 64 - 1) / 64) =
      .ok (some a, cache.setSlab a (emptySlab cache)) := by
  simp only [slabCreate, hpage, assert_of hp.slabMem_mod, ok_bind, hcalloc, Bool.not_true, Bool.false_eq_true,
    if_false]
  rfl

/-- The first slot of a new slab. -/
theorem Inv.slabAlloc_new (h : Inv cache L live) (hp : IsPage a) (hnone : cache.slabs a = none) :
    ∃ k, k < cache.objPerSlab ∧ bitAt (emptySlab cache).bitmap k = false ∧
      slabAlloc (cache.setSlab a (emptySlab cache)) a cache.objSize cache.objSizeAlign
        cache.fullBytes cache.leftBits = .ok (slot cache a k, taken cache a (emptySlab cache) k) ∧
      ∀ m', Objects { taken cache a (emptySlab cache) k with links := m' }
        (slot cache a k :: live) := by
  have hobj := h.objects.create hp hnone
  have hs : (cache.setSlab a (emptySlab cache)).slabs a = some (emptySlab cache) :=
    Function.update_self ..
  have hpos := h.objects.sized.perSlab_bounds.1
  have hne : (emptySlab cache).count ≠ (cache.setSlab a (emptySlab cache)).objPerSlab := by
    change 0 ≠ cache.objPerSlab
    omega
  obtain ⟨k, hk, hc, hr⟩ := slabAlloc_spec hobj.sized hs hp (hobj.slabOk a _ hs) hne
  refine ⟨k, hk, hc, ?_, fun m' => ?_⟩
  · rw [← taken_create]
    exact hr
  · rw [← taken_create]
    exact hobj.take hs hk hc m'

/-- **`slab_cache_alloc` when the CPU has no slab with a free slot**: it takes one of a
new slab, or returns NULL. -/
theorem Inv.newSlab (h : Inv cache L live) (hn : n < maxCpus) (henv : env.Fresh cache) :
    (∃ a k m' L', newSlab cache n env =
        .ok (slot cache a k, { taken cache a (emptySlab cache) k with links := m' }) ∧
      (cache.slabs a = none ∧ env.page = some a) ∧ Took cache live a (emptySlab cache) k m' L') ∨
    (newSlab cache n env = .ok (0, cache) ∧ (env.page = none ∨ env.calloc = false)) := by
  by_cases hf : env.page = none ∨ env.calloc = false
  · right
    rw [Slab.newSlab, slabCreate_fail henv hf, ok_bind]
    exact ⟨rfl, hf⟩
  · left
    obtain ⟨hpage, hcalloc⟩ := not_or.mp hf
    obtain ⟨a, hpage⟩ := Option.ne_none_iff_exists'.mp hpage
    rw [Bool.not_eq_false] at hcalloc
    obtain ⟨hp, hnone⟩ := henv a hpage
    obtain ⟨k, hk, hc, hr, hobj⟩ := h.slabAlloc_new hp hnone
    have hout : ∀ j ∈ inCache, a ∉ L j := by
      intro j hj ha
      obtain ⟨t, ht, _⟩ := h.placed.slab_of_mem j hj a ha
      rw [hnone] at ht
      exact absurd ht.symm (Option.some_ne_none t)
    have hfit := @fits_listAfterAlloc cache ((emptySlab cache).take k) (Nat.succ_ne_zero _)
    have hl := h.placed.linked.push
      (i := (n, listAfterAlloc ((emptySlab cache).take k) cache.objPerSlab)) hn hout
    refine ⟨a, k, _, _, ?_, ⟨hnone, hpage⟩, hp, hk, hc, emptySlab_ok cache,
      ⟨h.placed.update hl rfl rfl hn hfit (Placed.mem_pushed hout), hobj _⟩⟩
    rw [Slab.newSlab, slabCreate_ok hp hpage hcalloc, ok_bind]
    change (slabAlloc (cache.setSlab a (emptySlab cache)) a cache.objSize cache.objSizeAlign
      cache.fullBytes cache.leftBits >>= _) = _
    rw [hr, ok_bind]
    simp only [if_neg (slot_ne_zero h.objects.sized hp hk), load_taken, ok_bind]
    rfl

/-! ### A slab of the CPU -/

/-- A slab of a list that is not full, with its state. -/
theorem Inv.slab_of_mem (h : Inv cache L live) {i : ListId} (hi : i ∈ inCache) (ha : a ∈ L i)
    (hfull : i.2 ≠ .fullSlabs) :
    ∃ s, cache.slabs a = some s ∧ IsPage a ∧ SlabOk cache.objPerSlab s ∧ s.count ≠ cache.objPerSlab := by
  obtain ⟨s, hs, hf⟩ := h.placed.slab_of_mem i hi a ha
  have hpos := h.objects.sized.perSlab_bounds.1
  refine ⟨s, hs, h.objects.page a s hs, h.objects.slabOk a s hs, ?_⟩
  obtain ⟨n, list⟩ := i
  cases list with
  | fullSlabs => exact absurd rfl hfull
  | partialSlabs => exact hf.2
  | freeSlabs =>
    change s.count = 0 at hf
    omega

/-- **`slab_cache_alloc` when the CPU has a free slab.** -/
theorem Inv.freeSlabsLookup (h : Inv cache L live) (env : Env) (hn : n < maxCpus) {r : List Addr}
    (hL : L (n, .freeSlabs) = a :: r) :
    ∃ s k m' L', freeSlabsLookup cache n env =
        .ok (slot cache a k, { taken cache a s k with links := m' }) ∧
      cache.slabs a = some s ∧ Took cache live a s k m' L' := by
  have hi : (n, SlabList.freeSlabs) ∈ inCache := hn
  have ha : a ∈ L (n, .freeSlabs) := hL ▸ List.mem_cons_self
  obtain ⟨s, hs, hp, hok, hne⟩ := h.slab_of_mem hi ha SlabList.noConfusion
  obtain ⟨k, hk, hc, hr⟩ := slabAlloc_spec h.objects.sized hs hp hok hne
  have hnext := h.placed.linked.next_cons hi hL
  have hfit := @fits_listAfterAlloc cache (s.take k) (Nat.succ_ne_zero _)
  have hj : (n, listAfterAlloc (s.take k) cache.objPerSlab) ∈ inCache :=
    hn
  refine ⟨s, k, _, _, ?_, hs, hp, hk, hc, hok,
    h.take hs hk hc (h.placed.linked.move hi hj ha) hj hfit (h.placed.mem_moved hi ha)⟩
  unfold headOf at hnext
  simp only [Slab.freeSlabsLookup, hnext, reduceCtorEq, if_false, kdlistEntry, ok_bind, hr,
    if_neg (slot_ne_zero h.objects.sized hp hk)]
  rw [show ((taken cache a s k).delete a).load a = _ from load_taken cache a s k, ok_bind]
  rfl

/-- **`slab_cache_alloc` when the CPU has a partial slab.** -/
theorem Inv.partialSlabsLookup (h : Inv cache L live) (env : Env) (hn : n < maxCpus) {r : List Addr}
    (hL : L (n, .partialSlabs) = a :: r) :
    ∃ s k m' L', partialSlabsLookup cache n env =
        .ok (slot cache a k, { taken cache a s k with links := m' }) ∧
      cache.slabs a = some s ∧ Took cache live a s k m' L' := by
  have hi : (n, SlabList.partialSlabs) ∈ inCache := hn
  have ha : a ∈ L (n, .partialSlabs) := hL ▸ List.mem_cons_self
  obtain ⟨s, hs, hp, hok, hne⟩ := h.slab_of_mem hi ha SlabList.noConfusion
  obtain ⟨k, hk, hc, hr⟩ := slabAlloc_spec h.objects.sized hs hp hok hne
  have hnext := h.placed.linked.next_cons hi hL
  unfold headOf at hnext
  have hrun : Slab.partialSlabsLookup cache n env =
      if slabIsFull (s.take k) cache.objPerSlab then
        .ok (slot cache a k, ((taken cache a s k).delete a).pushTail (.head n .fullSlabs) a)
      else .ok (slot cache a k, taken cache a s k) := by
    simp only [Slab.partialSlabsLookup, hnext, reduceCtorEq, if_false, kdlistEntry, ok_bind, hr,
      if_neg (slot_ne_zero h.objects.sized hp hk), load_taken]
    rfl
  by_cases hf : s.count + 1 = cache.objPerSlab
  · have hj : (n, SlabList.fullSlabs) ∈ inCache := hn
    refine ⟨s, k, _, _, ?_, hs, hp, hk, hc, hok,
      h.take hs hk hc (h.placed.linked.move hi hj ha) hj hf (h.placed.mem_moved hi ha)⟩
    have hnf : slabIsFull (s.take k) cache.objPerSlab = true := beq_iff_eq.mpr hf
    rw [hrun, if_pos hnf]
    rfl
  · refine ⟨s, k, cache.links, L, ?_, hs, hp, hk, hc, hok,
      h.take hs hk hc h.placed.linked hi ⟨Nat.succ_ne_zero _, hf⟩ (h.placed.mem_same hi ha)⟩
    have hnf : ¬ slabIsFull (s.take k) cache.objPerSlab = true := fun hb => hf (beq_iff_eq.mp hb)
    rw [hrun, if_neg hnf]
    rfl

/-- **One call of `slab_cache_alloc`.**  It takes a free slot, of a new slab only if
the CPU has no slab that is not full, or returns NULL because there is no new slab. -/
theorem Inv.alloc (h : Inv cache L live) {cpu : Int} (hcpu : 0 ≤ cpu ∧ cpu < maxCpus)
    (henv : env.Fresh cache) :
    (∃ a s k m' L', slabCacheAlloc cache cpu env =
        .ok (slot cache a k, { taken cache a s k with links := m' }) ∧
      (cache.slabs a = some s ∨ (cache.slabs a = none ∧ env.page = some a) ∧ s = emptySlab cache ∧
        L (cpu.toNat, .partialSlabs) = [] ∧ L (cpu.toNat, .freeSlabs) = []) ∧
      Took cache live a s k m' L') ∨
    (slabCacheAlloc cache cpu env = .ok (0, cache) ∧ (env.page = none ∨ env.calloc = false)) := by
  have hn : cpu.toNat < maxCpus := by
    have := hcpu.2
    omega
  have hrun : slabCacheAlloc cache cpu env = Slab.partialSlabsLookup cache cpu.toNat env := by
    rw [slabCacheAlloc, assert_of hcpu, ok_bind]
  rw [hrun]
  cases hpart : L (cpu.toNat, .partialSlabs) with
  | cons a r =>
    obtain ⟨s, k, m', L', hr, hs, ht⟩ := h.partialSlabsLookup env hn hpart
    exact Or.inl ⟨a, s, k, m', L', hr, Or.inl hs, ht⟩
  | nil =>
    have hnext := h.placed.linked.next_nil (i := (cpu.toNat, .partialSlabs)) hn hpart
    unfold headOf at hnext
    rw [Slab.partialSlabsLookup, if_pos hnext]
    cases hfree : L (cpu.toNat, .freeSlabs) with
    | cons a r =>
      obtain ⟨s, k, m', L', hr, hs, ht⟩ := h.freeSlabsLookup env hn hfree
      exact Or.inl ⟨a, s, k, m', L', hr, Or.inl hs, ht⟩
    | nil =>
      have hnext := h.placed.linked.next_nil (i := (cpu.toNat, .freeSlabs)) hn hfree
      unfold headOf at hnext
      rw [Slab.freeSlabsLookup, if_pos hnext]
      rcases h.newSlab hn henv with ⟨a, k, m', L', hr, hnone, ht⟩ | hr
      · exact Or.inl ⟨a, _, k, m', L', hr, Or.inr ⟨hnone, rfl, rfl, rfl⟩, ht⟩
      · exact Or.inr hr

/-! ### Freeing -/

/-- What `slab_cache_free` does with the slab, by its count before and after. -/
theorem Inv.slabCacheFree_eq (h : Inv cache L live) {cpu : Int} (hcpu : 0 ≤ cpu ∧ cpu < maxCpus)
    (hs : cache.slabs a = some s) (hk : bitAt s.bitmap k = true) :
    slabCacheFree cache (slot cache a k) cpu =
      if slabIsFull s cache.objPerSlab then
        if slabIsFree (s.giveBack k) then
          .ok (((givenBack cache a s k).delete a).pushTail (.head cpu.toNat .freeSlabs) a)
        else .ok (((givenBack cache a s k).delete a).pushTail (.head cpu.toNat .partialSlabs) a)
      else if slabIsFree (s.giveBack k) then
        .ok (((givenBack cache a s k).delete a).pushTail (.head cpu.toNat .freeSlabs) a)
      else .ok (givenBack cache a s k) := by
  have hp := h.objects.page a s hs
  have hok := h.objects.slabOk a s hs
  have hkn := hok.below k hk
  have hsized := h.objects.sized
  have hlive : slot cache a k ∈ live := (h.objects.slot_mem hp hkn).mpr ⟨s, hs, hk⟩
  have hfree := slabFree_spec hsized hs hp hok hk (h.objects.redZone _ hlive)
  simp only [slabCacheFree, if_neg (slot_ne_zero hsized hp hkn), hcpu, and_self, not_true_eq_false,
    if_false, addr2Slab_slot hsized hp hkn, load_of hs, ok_bind, assert_of hok.magic,
    assert_of (slot_isAddrInRange hsized hp hkn), hfree, load_givenBack]
  rfl

/-- A slab that is neither full nor free is a partial slab. -/
theorem Inv.eq_partialSlabs (h : Inv cache L live) {i : Nat × SlabList} (hi : i ∈ inCache)
    (ha : a ∈ L i) (hs : cache.slabs a = some s) (hfull : s.count ≠ cache.objPerSlab)
    (hfree : s.count ≠ 0) : i.2 = .partialSlabs := by
  obtain ⟨t, ht, hfit⟩ := h.placed.slab_of_mem i hi a ha
  rw [hs, Option.some.injEq] at ht
  subst ht
  obtain ⟨c, list⟩ := i
  cases list with
  | fullSlabs => exact absurd hfit hfull
  | partialSlabs => rfl
  | freeSlabs => exact absurd hfit hfree

/-- **One call of `slab_cache_free` on a live object** gives its slot back. -/
theorem Inv.free (h : Inv cache L live) {cpu : Int} (hcpu : 0 ≤ cpu ∧ cpu < maxCpus)
    (hs : cache.slabs a = some s) (hk : bitAt s.bitmap k = true) :
    ∃ m' L', slabCacheFree cache (slot cache a k) cpu =
        .ok { givenBack cache a s k with links := m' } ∧
      Inv { givenBack cache a s k with links := m' } L' (live.erase (slot cache a k)) := by
  have hok := h.objects.slabOk a s hs
  have hpos := hok.count_pos hk
  have hle := hok.count_le
  have hn : cpu.toNat < maxCpus := by
    have := hcpu.2
    omega
  obtain ⟨i, hi, ha⟩ := h.placed.mem_of_slab a s hs
  have hobj := h.objects.giveBack hs hk
  have hmove : ∀ list, Fits cache.objPerSlab (s.giveBack k) list →
      ∃ m' L', (.ok (((givenBack cache a s k).delete a).pushTail (.head cpu.toNat list) a) :
          Except Stop SlabCache) = .ok { givenBack cache a s k with links := m' } ∧
        Inv { givenBack cache a s k with links := m' } L' (live.erase (slot cache a k)) := by
    intro list hf
    have hj : (cpu.toNat, list) ∈ inCache := hn
    exact ⟨_, _, rfl, h.placed.update (h.placed.linked.move hi hj ha) rfl rfl hj hf
      (h.placed.mem_moved hi ha), hobj _⟩
  rw [h.slabCacheFree_eq hcpu hs hk, slabIsFull, slabIsFree]
  simp only [beq_iff_eq, SlabT.giveBack_count]
  by_cases hz : s.count - 1 = 0
  · simp only [if_pos hz, ite_self]
    exact hmove .freeSlabs hz
  · simp only [if_neg hz]
    split
    next hf => exact hmove .partialSlabs ⟨hz, by rw [SlabT.giveBack_count]; omega⟩
    next hf =>
      -- it was partial, and stays so
      have hpart := h.eq_partialSlabs hi ha hs hf (Nat.ne_of_gt hpos)
      refine ⟨cache.links, L, rfl, h.placed.update h.placed.linked rfl rfl hi ?_
        (h.placed.mem_same hi ha), hobj _⟩
      rw [hpart]
      exact ⟨hz, by rw [SlabT.giveBack_count]; omega⟩

/-- The same, for an object of the callers. -/
theorem Inv.free_mem (h : Inv cache L live) {cpu : Int} (hcpu : 0 ≤ cpu ∧ cpu < maxCpus) {p : Addr}
    (hp : p ∈ live) :
    ∃ a s k m' L', p = slot cache a k ∧ cache.slabs a = some s ∧ bitAt s.bitmap k = true ∧
      slabCacheFree cache p cpu = .ok { givenBack cache a s k with links := m' } ∧
      Inv { givenBack cache a s k with links := m' } L' (live.erase p) := by
  obtain ⟨a, k, ⟨s, hs, hk⟩, rfl⟩ := (h.objects.live_iff p).mp hp
  obtain ⟨m', L', hr, hinv⟩ := h.free hcpu hs hk
  exact ⟨a, s, k, m', L', rfl, hs, hk, hr, hinv⟩

end DataStructures.Slab
