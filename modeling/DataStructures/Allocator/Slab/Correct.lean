import DataStructures.Allocator.Slab.Run

/-!
# What holds after every run

* `slabCache_consistent`: **lists, counters and bitmaps agree**, no assertion fails, and
  a new slab is made only by a CPU whose slabs are all full.
* `slabCache_objects`: **live objects and their red zones share no byte**, and the
  address of an object leads back to its bit.
* `slabCache_allocates_iff`: **a cache can allocate exactly when an object fits into a
  page with its red zone**, which is less than what `slab_cache_create` checks.
-/

namespace DataStructures.Slab

open Lib Kdlist
open Buddy (Addr)

variable {cache : SlabCache} {L : ListId → List Addr} {live : List Addr} {a : Addr} {s : SlabT}

/-! ### Lists, counters and bitmaps -/

/-- **The three encodings of the state agree.**  `L` are the lists of the CPUs. -/
structure Consistent (w : World) (L : ListId → List Addr) : Prop where
  /-- The traversal of each list meets the slabs in it. -/
  traversal : ∀ i ∈ inCache, ∀ fuel, (L i).length < fuel →
    kdlistForEach w.cache.links (headOf i) fuel = some ((L i).map .slab)
  /-- Every slab is in exactly one list, once. -/
  once : ∀ a s, w.cache.slabs a = some s →
    ∃ i ∈ inCache, (L i).count a = 1 ∧ ∀ j ∈ inCache, j ≠ i → a ∉ L j
  /-- A linked slab is there, and in the list for its counter. -/
  placed : ∀ i ∈ inCache, ∀ a ∈ L i, ∃ s, w.cache.slabs a = some s ∧
    (i.2 = .fullSlabs ↔ s.count = w.cache.objPerSlab) ∧ (i.2 = .freeSlabs ↔ s.count = 0) ∧
    (i.2 = .partialSlabs ↔ s.count ≠ 0 ∧ s.count ≠ w.cache.objPerSlab)
  /-- The counter is the number of set bits, and of live objects of the slab. -/
  count : ∀ a s, w.cache.slabs a = some s → s.count = (ones s.bitmap).length ∧
    s.count = (w.live.filter (fun p => addr2Slab p = a)).length
  /-- Only bits of objects are set. -/
  below : ∀ a s k, w.cache.slabs a = some s → bitAt s.bitmap k = true → k < w.cache.objPerSlab

/-- The set bits of a slab are its live objects. -/
theorem Objects.count_live (h : Objects cache live) (hs : cache.slabs a = some s) :
    (live.filter (fun p => addr2Slab p = a)).length = s.count := by
  have hp := h.page a s hs
  have hok := h.slabOk a s hs
  have hperm : (live.filter (fun p => addr2Slab p = a)).Perm ((ones s.bitmap).map (slot cache a)) := by
    rw [List.perm_ext_iff_of_nodup (h.nodup.filter _)]
    · intro p
      rw [List.mem_filter, h.live_iff, List.mem_map, decide_eq_true_eq]
      refine ⟨?_, ?_⟩
      · intro hm
        obtain ⟨⟨b, k, ⟨t, ht, hk⟩, rfl⟩, he⟩ := hm
        rw [addr2Slab_slot h.sized (h.page b t ht) ((h.slabOk b t ht).below k hk)] at he
        subst he
        rw [hs, Option.some.injEq] at ht
        subst ht
        exact ⟨k, mem_ones.mpr hk, rfl⟩
      · intro hm
        obtain ⟨k, hk, rfl⟩ := hm
        rw [mem_ones] at hk
        exact ⟨⟨a, k, ⟨s, hs, hk⟩, rfl⟩, addr2Slab_slot h.sized hp (hok.below k hk)⟩
    · refine (nodup_ones _).map_on (fun j hj k hk he => ?_)
      rw [mem_ones] at hj hk
      exact (slot_inj h.sized hp hp (hok.below j hj) (hok.below k hk) he).2
  rw [hperm.length_eq, List.length_map, hok.count]

/-- A slab fits into one list only. -/
theorem fits_iff {n : Nat} (hn : 1 ≤ n) {list : SlabList} (hf : Fits n s list) :
    (list = .fullSlabs ↔ s.count = n) ∧ (list = .freeSlabs ↔ s.count = 0) ∧
      (list = .partialSlabs ↔ s.count ≠ 0 ∧ s.count ≠ n) := by
  cases list with
  | fullSlabs =>
    have hc : s.count = n := hf
    exact ⟨iff_of_true rfl hc, iff_of_false nofun (by omega), iff_of_false nofun (fun hp => hp.2 hc)⟩
  | partialSlabs =>
    have hc : s.count ≠ 0 ∧ s.count ≠ n := hf
    exact ⟨iff_of_false nofun hc.2, iff_of_false nofun hc.1, iff_of_true rfl hc⟩
  | freeSlabs =>
    have hc : s.count = 0 := hf
    exact ⟨iff_of_false nofun (by omega), iff_of_true rfl hc, iff_of_false nofun (fun hp => hp.1 hc)⟩

theorem Inv.consistent {w : World} (h : Inv w.cache L w.live) : Consistent w L where
  traversal := fun i hi fuel hf => kdlistForEach_ring (h.placed.linked.ring i hi) (by
    rwa [List.length_map])
  once := fun a s hs => by
    obtain ⟨i, hi, ha⟩ := h.placed.mem_of_slab a s hs
    refine ⟨i, hi, List.count_eq_one_of_mem (h.placed.linked.nodup hi) ha, fun j hj hji haj => ?_⟩
    exact hji (h.placed.linked.eq_of_mem hj hi haj ha)
  placed := fun i hi a ha => by
    obtain ⟨s, hs, hf⟩ := h.placed.slab_of_mem i hi a ha
    exact ⟨s, hs, fits_iff h.objects.sized.perSlab_bounds.1 hf⟩
  count := fun a s hs => ⟨(h.objects.slabOk a s hs).count, (h.objects.count_live hs).symm⟩
  below := fun a s k hs hk => (h.objects.slabOk a s hs).below k hk

/-- Every slab of a CPU without free and partial slabs is full. -/
theorem Inv.all_full {n : Nat} (h : Inv cache L live) (hn : n < maxCpus)
    (hpart : L (n, .partialSlabs) = []) (hfree : L (n, .freeSlabs) = []) (list : SlabList)
    (ha : a ∈ L (n, list)) : ∃ s, cache.slabs a = some s ∧ s.count = cache.objPerSlab := by
  cases list with
  | fullSlabs => exact h.placed.slab_of_mem (n, .fullSlabs) hn a ha
  | partialSlabs =>
    rw [hpart] at ha
    exact absurd ha List.not_mem_nil
  | freeSlabs =>
    rw [hfree] at ha
    exact absurd ha List.not_mem_nil

/-- A cache of 32-byte objects. -/
def exampleCache : SlabCache where
  fullBytes := 0
  leftBits := 63
  objSize := 32
  objPerSlab := 63
  objSizeAlign := 64
  objName := []
  links := initHeads (fun _ => ⟨.head 0 .fullSlabs, .head 0 .fullSlabs⟩) maxCpus
  slabs := fun _ => none
  bytes := fun _ => 0

theorem exampleCache_eq : slabCacheCreate 32 (some []) true
    (fun _ => ⟨.head 0 .fullSlabs, .head 0 .fullSlabs⟩) (fun _ => 0) = some exampleCache := by
  have halign : alignSize (32 + redZoneSize) slabObjAlignment = 64 := by decide
  unfold slabCacheCreate
  rw [if_neg (by decide)]
  simp only [halign, List.length_nil]
  rfl

/-- The cache after CPU 0 has allocated an object, from a new slab at page 4096. -/
@[irreducible] def exampleAlloc : SlabCache :=
  match slabCacheAlloc exampleCache 0 ⟨some 4096, true⟩ with
  | .ok (_, cache) => cache
  | .error _ => exampleCache

set_option maxRecDepth 20000 in
theorem exampleAlloc_eq :
    slabCacheAlloc exampleCache 0 ⟨some 4096, true⟩ = .ok (4160, exampleAlloc) := by
  unfold exampleAlloc
  rfl

theorem exampleAlloc_reach {envs : Env → Prop} {shrinks : World → Int → Prop}
    (henv : envs ⟨some 4096, true⟩) : Reach exampleCache envs shrinks ⟨exampleAlloc, [4160]⟩ := by
  exact Reach.alloc (w := ⟨exampleCache, []⟩) .start (by decide) henv
    (fresh_some ⟨by decide, by decide⟩ rfl) exampleAlloc_eq

/-- The cache a call leaves, and `cache` if it does not return. -/
def cacheAfter (cache : SlabCache) : Except Stop (Addr × SlabCache) → SlabCache
  | .ok (_, cache) => cache
  | .error _ => cache

theorem eq_ok_of_fst {r : Except Stop (Addr × SlabCache)} {p : Addr} (cache : SlabCache)
    (h : r.toOption.map Prod.fst = some p) : r = .ok (p, cacheAfter cache r) := by
  cases r with
  | error _ => cases h
  | ok r =>
    obtain ⟨q, cache'⟩ := r
    obtain rfl : q = p := Option.some.inj h
    rfl

/-- The cache after CPU 0 has allocated a second object, from the same slab. -/
@[irreducible] def exampleTwo : SlabCache :=
  cacheAfter exampleAlloc (slabCacheAlloc exampleAlloc 0 ⟨none, true⟩)

theorem exampleTwo_eq : slabCacheAlloc exampleAlloc 0 ⟨none, true⟩ = .ok (4224, exampleTwo) := by
  have h : (slabCacheAlloc exampleAlloc 0 ⟨none, true⟩).toOption.map Prod.fst = some 4224 := by
    decide +kernel
  unfold exampleTwo
  exact eq_ok_of_fst exampleAlloc h

/-- The cache after CPU 1 has allocated a third, from a new slab at page 8192. -/
@[irreducible] def exampleThree : SlabCache :=
  cacheAfter exampleTwo (slabCacheAlloc exampleTwo 1 ⟨some 8192, true⟩)

theorem exampleThree_eq :
    slabCacheAlloc exampleTwo 1 ⟨some 8192, true⟩ = .ok (8256, exampleThree) := by
  have h : (slabCacheAlloc exampleTwo 1 ⟨some 8192, true⟩).toOption.map Prod.fst = some 8256 := by
    decide +kernel
  unfold exampleThree
  exact eq_ok_of_fst exampleTwo h

theorem exampleThree_reach {envs : Env → Prop} {shrinks : World → Int → Prop}
    (h₁ : envs ⟨some 4096, true⟩) (h₂ : envs ⟨none, true⟩) (h₃ : envs ⟨some 8192, true⟩) :
    Reach exampleCache envs shrinks ⟨exampleThree, [8256, 4224, 4160]⟩ := by
  have htwo : Reach exampleCache envs shrinks ⟨exampleTwo, [4224, 4160]⟩ :=
    (exampleAlloc_reach h₁).alloc (by decide) h₂ fresh_none exampleTwo_eq
  have hnone : exampleTwo.slabs 8192 = none := by decide +kernel
  exact htwo.alloc (by decide) h₃ (fresh_some ⟨by decide, by decide⟩ hnone)
    exampleThree_eq

/-- **Lists, counters and bitmaps agree after every run** of allocations and frees of
live objects, on any CPUs.  The next call of either function returns, so no assertion
fails; no slab disappears; and a new slab is made only if all slabs of the CPU are
full. -/
theorem slabCache_consistent (objSize : Nat) (objName : Option (List (BitVec 8))) (malloc : Bool)
    (links : Store Node) (bytes : Addr → BitVec 8) (cache : SlabCache)
    (hcreate : slabCacheCreate objSize objName malloc links bytes = some cache)
    (hfits : objSize + redZoneSize ≤ slabMemSize) (w : World) (h : Reach cache anyEnv noShrink w) :
    ∃ L, Consistent w L ∧
      (∀ cpu env, IsCpu cpu → env.Fresh w.cache →
        ∃ obj cache', slabCacheAlloc w.cache cpu env = .ok (obj, cache') ∧
          (∀ a, w.cache.slabs a ≠ none → cache'.slabs a ≠ none) ∧
          ∀ a, w.cache.slabs a = none → cache'.slabs a ≠ none → ∀ list, ∀ b ∈ L (cpu.toNat, list),
            ∃ s, w.cache.slabs b = some s ∧ s.count = w.cache.objPerSlab) ∧
      ∀ p ∈ w.live, ∀ cpu, IsCpu cpu → ∃ cache', slabCacheFree w.cache p cpu = .ok cache' ∧
        ∀ a, w.cache.slabs a ≠ none → cache'.slabs a ≠ none := by
  obtain ⟨_, L, hL⟩ := h.inv (slabCacheCreate_inv hcreate hfits) (fun _ _ hs => absurd hs id)
  have hkeep : ∀ (a b : Addr) (t : SlabT), w.cache.slabs b ≠ none →
      Function.update w.cache.slabs a (some t) b ≠ none := by
    intro a b t hb
    by_cases hba : b = a
    · rw [hba, Function.update_self]
      exact Option.some_ne_none t
    · rwa [Function.update_of_ne hba]
  refine ⟨L, hL.consistent, fun cpu env hcpu henv => ?_, fun p hp cpu hcpu => ?_⟩
  · rcases hL.alloc hcpu henv with ⟨a, s, k, m', L', hr, hs, _⟩ | ⟨hr, _⟩
    · refine ⟨_, _, hr, fun b hb => hkeep a b _ hb, fun b hb hb' list c hc => ?_⟩
      have hba : b = a := by
        by_contra hne
        exact hb' ((Function.update_of_ne hne _ _).trans hb)
      subst hba
      rcases hs with hs | ⟨_, _, hpart, hfree⟩
      · rw [hs] at hb
        exact absurd hb (Option.some_ne_none s)
      · exact hL.all_full hcpu.lt hpart hfree list hc
    · exact ⟨_, _, hr, fun b hb => hb, fun b hb hb' => absurd hb hb'⟩
  · obtain ⟨a, s, k, m', L', _, _, _, hr, _⟩ := hL.free_mem hcpu hp
    exact ⟨_, hr, fun b hb => hkeep a b _ hb⟩

theorem slabCache_consistent_exampleThree :
    ∃ L, Consistent ⟨exampleThree, [8256, 4224, 4160]⟩ L ∧
      (∀ cpu env, IsCpu cpu → env.Fresh exampleThree →
        ∃ obj cache', slabCacheAlloc exampleThree cpu env = .ok (obj, cache') ∧
          (∀ a, exampleThree.slabs a ≠ none → cache'.slabs a ≠ none) ∧
          ∀ a, exampleThree.slabs a = none → cache'.slabs a ≠ none →
            ∀ list, ∀ b ∈ L (cpu.toNat, list),
              ∃ s, exampleThree.slabs b = some s ∧ s.count = exampleThree.objPerSlab) ∧
      ∀ p ∈ ([8256, 4224, 4160] : List Addr), ∀ cpu, IsCpu cpu →
        ∃ cache', slabCacheFree exampleThree p cpu = .ok cache' ∧
          ∀ a, exampleThree.slabs a ≠ none → cache'.slabs a ≠ none :=
  slabCache_consistent 32 _ _ _ _ exampleCache exampleCache_eq (by decide)
    ⟨exampleThree, [8256, 4224, 4160]⟩ (exampleThree_reach trivial trivial trivial)

/-! ### Objects and addresses -/

/-- The index `slab_cache_free` computes for an address. -/
def objIdx (cache : SlabCache) (p : Addr) : Nat :=
  (p - slabMem (addr2Slab p)).toNat / cache.objSizeAlign

theorem objIdx_slot {k : Nat} (h : Sized cache) (hp : IsPage a) (hk : k < cache.objPerSlab) :
    objIdx cache (slot cache a k) = k := by
  rw [objIdx, addr2Slab_slot h hp hk, slot_index h hk]

/-- An allocation writes only bytes of the object it returns, and sets one bit. -/
theorem Inv.alloc_object (h : Inv cache L live) {cpu : Int} (hcpu : IsCpu cpu) {env : Env}
    (henv : env.Fresh cache) {p : Addr} {cache' : SlabCache}
    (hr : slabCacheAlloc cache cpu env = .ok (p, cache')) (hp : p ≠ 0) :
    p ∉ live ∧ p.toNat % slabObjAlignment = 0 ∧
    (∀ x, ¬ Covers cache p x → cache'.bytes x = cache.bytes x) ∧
    (∀ q ∈ live, ∀ x, Covers cache q x → cache'.bytes x = cache.bytes x) ∧
    ¬ Used cache (addr2Slab p) (objIdx cache p) ∧
    ∀ b k, Used cache' b k ↔ Used cache b k ∨ (b = addr2Slab p ∧ k = objIdx cache p) := by
  have hsized := h.objects.sized
  rcases h.alloc hcpu henv with ⟨a, s, k, m', L', he, hs, ht⟩ | ⟨he, _⟩
  · rw [he, Except.ok.injEq, Prod.mk.injEq] at hr
    obtain ⟨rfl, rfl⟩ := hr
    rw [addr2Slab_slot hsized ht.page ht.lt, objIdx_slot hsized ht.page ht.lt]
    have hout : ∀ x, ¬ Covers cache (slot cache a k) x →
        writeU64 cache.bytes (slot cache a k + BitVec.ofNat 64 cache.objSize) redZoneMagic x =
          cache.bytes x := fun x hx =>
      writeU64_of_not (fun hlt => hx (covers_redZone hsized ht.page ht.lt hlt))
    have hclear : ¬ Used cache a k := by
      intro hu
      obtain ⟨t, hta, hk⟩ := hu
      rcases hs with hs | ⟨⟨hnone, _⟩, _⟩
      · rw [hs, Option.some.injEq] at hta
        rw [← hta, ht.clear] at hk
        exact Bool.noConfusion hk
      · rw [hnone] at hta
        exact absurd hta.symm (Option.some_ne_none t)
    have hnl : slot cache a k ∉ live :=
      fun hm => hclear ((h.objects.slot_mem ht.page ht.lt).mp hm)
    refine ⟨hnl, slot_aligned hsized ht.page ht.lt, hout, fun q hq x hx => hout x ?_, hclear, ?_⟩
    · obtain ⟨b, j, hpb, hj, _, rfl⟩ := h.objects.exists_slot hq
      exact slots_disjoint hsized hpb ht.page hj ht.lt (fun he => hnl (he ▸ hq)) hx
    · intro b j
      rcases hs with hs | ⟨⟨hnone, _⟩, rfl, _⟩
      · exact used_taken hs (ht.ok.lt_length ht.lt)
      · -- no bit of the new slab was set
        have hu := @used_taken (cache.setSlab a (emptySlab cache)) a (emptySlab cache) k
          (Function.update_self ..) ((emptySlab_ok cache).lt_length ht.lt) b j
        rw [taken_create, used_create hnone] at hu
        exact hu
  · rw [he, Except.ok.injEq, Prod.mk.injEq] at hr
    exact absurd hr.1.symm hp

/-- Freeing an object clears the bit its address leads back to. -/
theorem Inv.free_object (h : Inv cache L live) {cpu : Int} (hcpu : IsCpu cpu) {p : Addr}
    (hp : p ∈ live) {cache' : SlabCache} (hr : slabCacheFree cache p cpu = .ok cache') :
    Used cache (addr2Slab p) (objIdx cache p) ∧
    ∀ b k, Used cache' b k ↔ Used cache b k ∧ ¬ (b = addr2Slab p ∧ k = objIdx cache p) := by
  have hsized := h.objects.sized
  obtain ⟨a, s, k, m', L', rfl, hs, hbit, he, _⟩ := h.free_mem hcpu hp
  have hu : Used cache a k := ⟨s, hs, hbit⟩
  obtain ⟨hpa, hk⟩ := hu.lt h.objects
  rw [he, Except.ok.injEq] at hr
  subst hr
  rw [addr2Slab_slot hsized hpa hk, objIdx_slot hsized hpa hk]
  exact ⟨hu, fun b j => used_givenBack hs hbit⟩

/-- **Live objects and their red zones share no byte, and addresses lead back.**  After
every run each live object is aligned and lies in its page, behind the header.  An
allocation writes only bytes of the object it returns, so none of a live object or of
its red zone, and it sets one bit, the one the address of the object leads back to;
freeing the object clears this bit and no other. -/
theorem slabCache_objects (objSize : Nat) (objName : Option (List (BitVec 8))) (malloc : Bool)
    (links : Store Node) (bytes : Addr → BitVec 8) (cache : SlabCache)
    (hcreate : slabCacheCreate objSize objName malloc links bytes = some cache)
    (hfits : objSize + redZoneSize ≤ slabMemSize) (w : World) (h : Reach cache anyEnv noShrink w) :
    w.cache.objSize = objSize ∧
    (∀ p ∈ w.live, p.toNat % slabObjAlignment = 0 ∧ w.cache.slabs (addr2Slab p) ≠ none ∧
      ∀ x, Covers w.cache p x → (addr2Slab p).toNat + sizeofSlab ≤ x.toNat ∧
        x.toNat < (addr2Slab p).toNat + slabBlkSize) ∧
    (∀ p ∈ w.live, ∀ q ∈ w.live, p ≠ q → ∀ x, Covers w.cache p x → ¬ Covers w.cache q x) ∧
    (∀ cpu env p cache', IsCpu cpu → env.Fresh w.cache →
      slabCacheAlloc w.cache cpu env = .ok (p, cache') → p ≠ 0 →
      p ∉ w.live ∧ p.toNat % slabObjAlignment = 0 ∧
      (∀ x, ¬ Covers w.cache p x → cache'.bytes x = w.cache.bytes x) ∧
      (∀ q ∈ w.live, ∀ x, Covers w.cache q x → cache'.bytes x = w.cache.bytes x) ∧
      ¬ Used w.cache (addr2Slab p) (objIdx w.cache p) ∧
      ∀ b k, Used cache' b k ↔
        Used w.cache b k ∨ (b = addr2Slab p ∧ k = objIdx w.cache p)) ∧
    ∀ p ∈ w.live, ∀ cpu cache', IsCpu cpu → slabCacheFree w.cache p cpu = .ok cache' →
      Used w.cache (addr2Slab p) (objIdx w.cache p) ∧
      ∀ b k, Used cache' b k ↔
        Used w.cache b k ∧ ¬ (b = addr2Slab p ∧ k = objIdx w.cache p) := by
  obtain ⟨hsize, L, hL⟩ := h.inv (slabCacheCreate_inv hcreate hfits) (fun _ _ hs => absurd hs id)
  have hsized := hL.objects.sized
  refine ⟨hsize.trans (slabCacheCreate_eq hcreate).2.2.1, fun p hp => ?_,
    fun p hp q hq hne x hx => ?_, fun cpu env p cache' hcpu henv hr hp =>
      hL.alloc_object hcpu henv hr hp, fun p hp cpu cache' hcpu hr => hL.free_object hcpu hp hr⟩
  · obtain ⟨a, k, hpa, hk, ⟨s, hs, _⟩, rfl⟩ := hL.objects.exists_slot hp
    rw [addr2Slab_slot hsized hpa hk, hs]
    exact ⟨slot_aligned hsized hpa hk, Option.some_ne_none s,
      fun x hx => covers_slot_page hsized hpa hk hx⟩
  · obtain ⟨a, k, hpa, hk, _, rfl⟩ := hL.objects.exists_slot hp
    obtain ⟨b, j, hpb, hj, _, rfl⟩ := hL.objects.exists_slot hq
    exact slots_disjoint hsized hpa hpb hk hj hne hx

theorem slabCache_objects_exampleThree :
    exampleThree.objSize = 32 ∧
    (∀ p ∈ ([8256, 4224, 4160] : List Addr), p.toNat % slabObjAlignment = 0 ∧
      exampleThree.slabs (addr2Slab p) ≠ none ∧
      ∀ x, Covers exampleThree p x → (addr2Slab p).toNat + sizeofSlab ≤ x.toNat ∧
        x.toNat < (addr2Slab p).toNat + slabBlkSize) ∧
    (∀ p ∈ ([8256, 4224, 4160] : List Addr), ∀ q ∈ ([8256, 4224, 4160] : List Addr), p ≠ q → ∀ x,
      Covers exampleThree p x → ¬ Covers exampleThree q x) ∧
    (∀ cpu env p cache', IsCpu cpu → env.Fresh exampleThree →
      slabCacheAlloc exampleThree cpu env = .ok (p, cache') → p ≠ 0 →
      p ∉ ([8256, 4224, 4160] : List Addr) ∧ p.toNat % slabObjAlignment = 0 ∧
      (∀ x, ¬ Covers exampleThree p x → cache'.bytes x = exampleThree.bytes x) ∧
      (∀ q ∈ ([8256, 4224, 4160] : List Addr), ∀ x, Covers exampleThree q x →
        cache'.bytes x = exampleThree.bytes x) ∧
      ¬ Used exampleThree (addr2Slab p) (objIdx exampleThree p) ∧
      ∀ b k, Used cache' b k ↔
        Used exampleThree b k ∨ (b = addr2Slab p ∧ k = objIdx exampleThree p)) ∧
    ∀ p ∈ ([8256, 4224, 4160] : List Addr), ∀ cpu cache', IsCpu cpu →
      slabCacheFree exampleThree p cpu = .ok cache' →
      Used exampleThree (addr2Slab p) (objIdx exampleThree p) ∧
      ∀ b k, Used cache' b k ↔
        Used exampleThree b k ∧ ¬ (b = addr2Slab p ∧ k = objIdx exampleThree p) :=
  slabCache_objects 32 _ _ _ _ exampleCache exampleCache_eq (by decide)
    ⟨exampleThree, [8256, 4224, 4160]⟩ (exampleThree_reach trivial trivial trivial)

/-! ### Which caches can allocate -/

/-- The system grants every request. -/
def grants (env : Env) : Prop := env.page ≠ none ∧ env.calloc = true

/-- The first call on a new cache makes a slab. -/
theorem slabCacheAlloc_start {objSize : Nat} {objName : Option (List (BitVec 8))} {malloc : Bool}
    {links : Store Node} {bytes : Addr → BitVec 8} {cpu : Int} (env : Env)
    (hcreate : slabCacheCreate objSize objName malloc links bytes = some cache) (hcpu : IsCpu cpu) :
    slabCacheAlloc cache cpu env = newSlab cache cpu.toNat env := by
  have hrange : 0 ≤ cpu ∧ cpu < maxCpus := hcpu
  have hl := slabCacheCreate_linked hcreate
  have hpart := hl.next_nil (i := (cpu.toNat, .partialSlabs)) hcpu.lt rfl
  have hfree := hl.next_nil (i := (cpu.toNat, .freeSlabs)) hcpu.lt rfl
  unfold headOf at hpart hfree
  rw [slabCacheAlloc, assert_of hrange, ok_bind, partialSlabsLookup, if_pos hpart, freeSlabsLookup,
    if_pos hfree]

/-- The sizes of a cache whose objects do not fit. -/
theorem slabCacheCreate_unfit {objSize : Nat} {objName : Option (List (BitVec 8))} {malloc : Bool}
    {links : Store Node} {bytes : Addr → BitVec 8}
    (hcreate : slabCacheCreate objSize objName malloc links bytes = some cache)
    (hbig : ¬ objSize + redZoneSize ≤ slabMemSize) :
    cache.objPerSlab = 0 ∧ cache.fullBytes = 0 ∧ cache.leftBits = 0 := by
  obtain ⟨_, hmax, _, halign, hper, hfull, hleft, _⟩ := slabCacheCreate_eq hcreate
  have hzero : cache.objPerSlab = 0 := by
    rw [slabObjMaxSize, slabMemSize_eq] at hmax
    rw [slabMemSize_eq] at hbig
    unfold redZoneSize at halign hbig
    have hup : (objSize + 8 + 63) / 64 * 64 = 4096 := by omega
    rw [hper, halign, alignSize_eq (by omega), slabMemSize_eq, hup]
  rw [hfull, hleft, hzero]
  exact ⟨rfl, rfl, rfl⟩

/-- **On a cache whose objects do not fit, a call that gets a page stops at an
assertion.** -/
theorem slabCacheAlloc_unfit {objSize : Nat} {objName : Option (List (BitVec 8))} {malloc : Bool}
    {links : Store Node} {bytes : Addr → BitVec 8} {cpu : Int} {env : Env}
    (hcreate : slabCacheCreate objSize objName malloc links bytes = some cache)
    (hbig : ¬ objSize + redZoneSize ≤ slabMemSize) (hcpu : IsCpu cpu) (hgrants : grants env)
    (henv : env.Fresh cache) :
    ∃ cache', slabCacheAlloc cache cpu env = .error (.assertion cache') := by
  obtain ⟨hper, hfull, hleft⟩ := slabCacheCreate_unfit hcreate hbig
  obtain ⟨a, hpage⟩ := Option.ne_none_iff_exists'.mp hgrants.1
  have hs : (cache.setSlab a (emptySlab cache)).slabs a = some (emptySlab cache) :=
    Function.update_self ..
  have hfree : (slabIsFree (emptySlab cache) ||
      slabIsPartial (emptySlab cache) (cache.fullBytes * 64 + cache.leftBits)) = true := rfl
  refine ⟨cache.setSlab a (emptySlab cache), ?_⟩
  rw [slabCacheAlloc_start env hcreate hcpu, newSlab, slabCreate_ok (henv a hpage).1 hpage hgrants.2,
    ok_bind]
  change (slabAlloc (cache.setSlab a (emptySlab cache)) a cache.objSize cache.objSizeAlign
    cache.fullBytes cache.leftBits >>= _) = _
  rw [slabAlloc, load_of hs, ok_bind, assert_of hfree, ok_bind, hfull, hleft]
  rfl

/-- **Which caches can allocate.**  Of the caches `slab_cache_create` returns, those
whose objects fit into a page with their red zone: after every run in which the system
grants all requests, every allocation returns an object that lies in its page with its
red zone, and no assertion fails.  The others have room for no object. -/
theorem slabCache_allocates_iff (objSize : Nat) (objName : Option (List (BitVec 8))) (malloc : Bool)
    (links : Store Node) (bytes : Addr → BitVec 8) (cache : SlabCache)
    (hcreate : slabCacheCreate objSize objName malloc links bytes = some cache) :
    (1 ≤ cache.objPerSlab ∧ ∀ w, Reach cache grants noShrink w →
      (∀ cpu env, IsCpu cpu → grants env → env.Fresh w.cache →
        ∃ p cache', slabCacheAlloc w.cache cpu env = .ok (p, cache') ∧ p ≠ 0 ∧
          ∀ x, Covers w.cache p x → (addr2Slab p).toNat + sizeofSlab ≤ x.toNat ∧
            x.toNat < (addr2Slab p).toNat + slabBlkSize) ∧
      ∀ p ∈ w.live, ∀ cpu, IsCpu cpu → ∃ cache', slabCacheFree w.cache p cpu = .ok cache') ↔
    objSize + redZoneSize ≤ slabMemSize := by
  refine ⟨fun hall => ?_, fun hfits => ⟨?_, fun w h => ⟨fun cpu env hcpu hgrants henv => ?_,
    fun p hp cpu hcpu => ?_⟩⟩⟩
  · by_contra hbig
    rw [(slabCacheCreate_unfit hcreate hbig).1] at hall
    exact absurd hall.1 (by decide)
  · exact (slabCacheCreate_sized hcreate hfits).perSlab_bounds.1
  · obtain ⟨_, L, hL⟩ := h.inv (slabCacheCreate_inv hcreate hfits) (fun _ _ hs => absurd hs id)
    have hsized := hL.objects.sized
    rcases hL.alloc hcpu henv with ⟨a, s, k, m', L', hr, _, ht⟩ | ⟨_, hnone | hcalloc⟩
    · refine ⟨_, _, hr, slot_ne_zero hsized ht.page ht.lt, fun x hx => ?_⟩
      rw [addr2Slab_slot hsized ht.page ht.lt]
      exact covers_slot_page hsized ht.page ht.lt hx
    · exact absurd hnone hgrants.1
    · rw [hgrants.2] at hcalloc
      exact Bool.noConfusion hcalloc
  · obtain ⟨_, L, hL⟩ := h.inv (slabCacheCreate_inv hcreate hfits) (fun _ _ hs => absurd hs id)
    obtain ⟨a, s, k, m', L', _, _, _, hr, _⟩ := hL.free_mem hcpu hp
    exact ⟨_, hr⟩

theorem slabCache_allocates_iff_exampleCache :
    (1 ≤ exampleCache.objPerSlab ∧ ∀ w, Reach exampleCache grants noShrink w →
      (∀ cpu env, IsCpu cpu → grants env → env.Fresh w.cache →
        ∃ p cache', slabCacheAlloc w.cache cpu env = .ok (p, cache') ∧ p ≠ 0 ∧
          ∀ x, Covers w.cache p x → (addr2Slab p).toNat + sizeofSlab ≤ x.toNat ∧
            x.toNat < (addr2Slab p).toNat + slabBlkSize) ∧
      ∀ p ∈ w.live, ∀ cpu, IsCpu cpu → ∃ cache', slabCacheFree w.cache p cpu = .ok cache') ↔
    32 + redZoneSize ≤ slabMemSize :=
  slabCache_allocates_iff 32 _ _ _ _ exampleCache exampleCache_eq

/-- **Objects of 4032 bytes are accepted, and the first allocation stops at an
assertion.** -/
theorem slabCache_not_allocates : ∃ cache, slabCacheCreate 4032 (some []) true
      (fun _ => ⟨.head 0 .fullSlabs, .head 0 .fullSlabs⟩) (fun _ => 0) = some cache ∧
    cache.objPerSlab = 0 ∧
    ∃ cache', slabCacheAlloc cache 0 ⟨some 4096, true⟩ = .error (.assertion cache') := by
  have hbig : ¬ 4032 + redZoneSize ≤ slabMemSize := by decide
  have hcreate : ∃ cache, slabCacheCreate 4032 (some []) true
      (fun _ => ⟨.head 0 .fullSlabs, .head 0 .fullSlabs⟩) (fun _ => 0) = some cache := by
    unfold slabCacheCreate
    rw [if_neg (by decide)]
    exact ⟨_, rfl⟩
  obtain ⟨cache, hcreate⟩ := hcreate
  refine ⟨cache, hcreate, (slabCacheCreate_unfit hcreate hbig).1, ?_⟩
  exact slabCacheAlloc_unfit hcreate hbig (by decide)
    ⟨Option.some_ne_none _, rfl⟩
    (fresh_some ⟨by decide, by decide⟩ ((slabCacheCreate_eq hcreate).2.2.2.2.2.2.2.2 _))

end DataStructures.Slab
