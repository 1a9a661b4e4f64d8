import DataStructures.Allocator.Slab.Shrink
import Mathlib.Algebra.Order.BigOperators.Group.Finset

/-!
# How many pages a cache holds

`slab_cache_alloc` makes a slab only for a CPU that has no free slot, and
`slab_cache_free` leaves a slab where it is or gives it to the CPU that frees.
`Inv.alloc_moved` and `Inv.free_moved` say which list it goes to.  Nothing else decides
how many pages a cache comes to hold.

* `slabCache_packs`: **when one CPU makes all the calls, they are as few as can be**: as
  many as the live objects filled when they were most.
* `slabCache_hoards`: **when another CPU frees, every object takes a new page**, though
  no two are ever live at once.  The free slabs pile up at the CPU that frees.
-/

namespace DataStructures.Slab

open Lib Kdlist
open Buddy (Addr)

variable {cache cache' : SlabCache} {L L' : ListId → List Addr} {live : List Addr} {a p : Addr}
  {s : SlabT} {i j : ListId} {k n : Nat} {env : Env} {cpu cpu' : Int} {pages : Finset Addr}

/-! ### Where the slabs go -/

/-- Slab `a` is in list `j` afterwards, and the others are where they were. -/
def Moved (L L' : ListId → List Addr) (a : Addr) (j : ListId) : Prop :=
  ∀ i ∈ inCache, ∀ b, b ∈ L' i ↔ if b = a then i = j else b ∈ L i

theorem Moved.mem {b : Addr} (h : Moved L L' a j) (hi : i ∈ inCache) (hb : b ∈ L' i) :
    i = j ∨ b ∈ L i := by
  rw [h i hi b] at hb
  split at hb
  · exact Or.inl hb
  · exact Or.inr hb

/-- The call hands out slot `k` of the slab `s` at `a`, which is in a list of CPU `n` then. -/
def HandsOut (cache : SlabCache) (L : ListId → List Addr) (live : List Addr) (n : Nat)
    (r : Except Stop (Addr × SlabCache)) (a : Addr) (s : SlabT) (k : Nat) : Prop :=
  ∃ m' L' list, r = .ok (slot cache a k, { taken cache a s k with links := m' }) ∧
    Inv { taken cache a s k with links := m' } L' (slot cache a k :: live) ∧
    Moved L L' a (n, list)

theorem Inv.newSlab_moved (h : Inv cache L live) (hn : n < maxCpus) (henv : env.Fresh cache)
    (hgrants : grants env) :
    ∃ a k, HandsOut cache L live n (Slab.newSlab cache n env) a (emptySlab cache) k ∧
      cache.slabs a = none ∧ IsPage a ∧ k < cache.objPerSlab := by
  obtain ⟨a, hpage⟩ := Option.ne_none_iff_exists'.mp hgrants.1
  obtain ⟨hp, hnone⟩ := henv a hpage
  obtain ⟨k, hk, hc, hr, hobj⟩ := h.slabAlloc_new hp hnone
  have hout : ∀ j ∈ inCache, a ∉ L j := fun j hj ha => h.placed.slab_ne_none hj ha hnone
  have hfit := @fits_listAfterAlloc cache ((emptySlab cache).take k) (Nat.succ_ne_zero _)
  have hl := h.placed.linked.push
    (i := (n, listAfterAlloc ((emptySlab cache).take k) cache.objPerSlab)) hn hout
  refine ⟨a, k, ⟨_, _, _, ?_, ⟨h.placed.update hl rfl rfl hn hfit (Placed.mem_pushed hout), hobj _⟩,
    Placed.mem_pushed hout⟩, hnone, hp, hk⟩
  rw [Slab.newSlab, slabCreate_ok hp hpage hgrants.2, ok_bind]
  change (slabAlloc (cache.setSlab a (emptySlab cache)) a cache.objSize cache.objSizeAlign
    cache.fullBytes cache.leftBits >>= _) = _
  rw [hr, ok_bind]
  simp only [if_neg (slot_ne_zero h.objects.sized hp hk), load_taken, ok_bind]
  rfl

theorem Inv.freeSlabsLookup_moved (h : Inv cache L live) (env : Env) (hn : n < maxCpus)
    {r : List Addr} (hL : L (n, .freeSlabs) = a :: r) :
    ∃ s k, HandsOut cache L live n (Slab.freeSlabsLookup cache n env) a s k ∧ cache.slabs a = some s ∧
      IsPage a ∧ k < cache.objPerSlab := by
  have hi : (n, SlabList.freeSlabs) ∈ inCache := hn
  have ha : a ∈ L (n, .freeSlabs) := hL ▸ List.mem_cons_self
  obtain ⟨s, hs, hp, hok, hne⟩ := h.slab_of_mem hi ha SlabList.noConfusion
  obtain ⟨k, hk, hc, hr⟩ := slabAlloc_spec h.objects.sized hs hp hok hne
  have hnext := h.placed.linked.next_cons hi hL
  have hfit := @fits_listAfterAlloc cache (s.take k) (Nat.succ_ne_zero _)
  have hj : (n, listAfterAlloc (s.take k) cache.objPerSlab) ∈ inCache := hn
  refine ⟨s, k, ⟨_, _, _, ?_, h.take hs hk hc (h.placed.linked.move hi hj ha) hj hfit
    (h.placed.mem_moved hi ha), h.placed.mem_moved hi ha⟩, hs, hp, hk⟩
  unfold headOf at hnext
  simp only [Slab.freeSlabsLookup, hnext, reduceCtorEq, if_false, kdlistEntry, ok_bind, hr,
    if_neg (slot_ne_zero h.objects.sized hp hk)]
  rw [show ((taken cache a s k).delete a).load a = _ from load_taken cache a s k, ok_bind]
  rfl

theorem Inv.partialSlabsLookup_moved (h : Inv cache L live) (env : Env) (hn : n < maxCpus)
    {r : List Addr} (hL : L (n, .partialSlabs) = a :: r) :
    ∃ s k, HandsOut cache L live n (Slab.partialSlabsLookup cache n env) a s k ∧
      cache.slabs a = some s ∧ IsPage a ∧ k < cache.objPerSlab := by
  have hi : (n, SlabList.partialSlabs) ∈ inCache := hn
  have hj : (n, SlabList.fullSlabs) ∈ inCache := hn
  have ha : a ∈ L (n, .partialSlabs) := hL ▸ List.mem_cons_self
  obtain ⟨s, hs, hp, hok, hne⟩ := h.slab_of_mem hi ha SlabList.noConfusion
  obtain ⟨k, hk, hc, hr⟩ := slabAlloc_spec h.objects.sized hs hp hok hne
  have hnext := h.placed.linked.next_cons hi hL
  unfold headOf at hnext
  have hrun : Slab.partialSlabsLookup cache n env =
      if slabIsFull (s.take k) cache.objPerSlab then
        .ok (slot cache a k, ((taken cache a s k).delete a).pushTail (.head n .fullSlabs) a)
      else .ok (slot cache a k, taken cache a s k) := by
    simp only [Slab.partialSlabsLookup, hnext, reduceCtorEq, if_false, kdlistEntry, ok_bind, hr,
      if_neg (slot_ne_zero h.objects.sized hp hk), load_taken]
    rfl
  refine ⟨s, k, ?_, hs, hp, hk⟩
  by_cases hf : s.count + 1 = cache.objPerSlab
  · have hfull : slabIsFull (s.take k) cache.objPerSlab = true := beq_iff_eq.mpr hf
    refine ⟨_, _, .fullSlabs, ?_, h.take hs hk hc (h.placed.linked.move hi hj ha) hj hf
      (h.placed.mem_moved hi ha), h.placed.mem_moved hi ha⟩
    rw [hrun, if_pos hfull]
    rfl
  · have hpart : ¬ slabIsFull (s.take k) cache.objPerSlab = true := fun hb => hf (beq_iff_eq.mp hb)
    refine ⟨cache.links, L, .partialSlabs, ?_, h.take hs hk hc h.placed.linked hi
      ⟨Nat.succ_ne_zero _, hf⟩ (h.placed.mem_same hi ha), h.placed.mem_same hi ha⟩
    rw [hrun, if_neg hpart]
    rfl

/-- **Where an allocation takes its slot**: in a slab of the CPU, which stays with it, or in
a new one if the CPU has no free slot. -/
theorem Inv.alloc_moved (h : Inv cache L live) (hcpu : IsCpu cpu) (henv : env.Fresh cache)
    (hr : slabCacheAlloc cache cpu env = .ok (p, cache')) (hp : p ≠ 0) :
    ∃ a s k, HandsOut cache L live cpu.toNat (.ok (p, cache')) a s k ∧ IsPage a ∧
      k < cache.objPerSlab ∧ ((∃ list, a ∈ L (cpu.toNat, list) ∧ cache.slabs a = some s) ∨
        cache.slabs a = none ∧ L (cpu.toNat, .partialSlabs) = [] ∧
          L (cpu.toNat, .freeSlabs) = []) := by
  have hrange : 0 ≤ cpu ∧ cpu < maxCpus := hcpu
  have hn := hcpu.lt
  rw [slabCacheAlloc, assert_of hrange, ok_bind] at hr
  rw [← hr]
  cases hpart : L (cpu.toNat, .partialSlabs) with
  | cons a r =>
    obtain ⟨s, k, hout, hs, hpage, hk⟩ := h.partialSlabsLookup_moved env hn hpart
    exact ⟨a, s, k, hout, hpage, hk, Or.inl ⟨.partialSlabs, hpart ▸ List.mem_cons_self, hs⟩⟩
  | nil =>
    have hnext := h.placed.linked.next_nil (i := (cpu.toNat, .partialSlabs)) hn hpart
    unfold headOf at hnext
    rw [Slab.partialSlabsLookup, if_pos hnext] at hr ⊢
    cases hfree : L (cpu.toNat, .freeSlabs) with
    | cons a r =>
      obtain ⟨s, k, hout, hs, hpage, hk⟩ := h.freeSlabsLookup_moved env hn hfree
      exact ⟨a, s, k, hout, hpage, hk, Or.inl ⟨.freeSlabs, hfree ▸ List.mem_cons_self, hs⟩⟩
    | nil =>
      have hnext := h.placed.linked.next_nil (i := (cpu.toNat, .freeSlabs)) hn hfree
      unfold headOf at hnext
      rw [Slab.freeSlabsLookup, if_pos hnext] at hr ⊢
      by_cases hf : env.page = none ∨ env.calloc = false
      · -- the system has refused a new slab
        rw [Slab.newSlab, slabCreate_fail henv hf, ok_bind] at hr
        change Except.ok (0, cache) = Except.ok (p, cache') at hr
        rw [Except.ok.injEq, Prod.mk.injEq] at hr
        exact absurd hr.1.symm hp
      · obtain ⟨hpage, hcalloc⟩ := not_or.mp hf
        rw [Bool.not_eq_false] at hcalloc
        obtain ⟨a, k, hout, hnone, hp, hk⟩ := h.newSlab_moved hn henv ⟨hpage, hcalloc⟩
        exact ⟨a, _, k, hout, hp, hk, Or.inr ⟨hnone, rfl, rfl⟩⟩

/-- The call takes back slot `k` of the slab `s` at `a`, which stays in its list or goes to one of
CPU `n`, that of the free slabs if the object was the last. -/
def TakesBack (cache : SlabCache) (L : ListId → List Addr) (live : List Addr) (n : Nat)
    (cache' : SlabCache) (a : Addr) (s : SlabT) (k : Nat) : Prop :=
  ∃ m' L' j, cache' = { givenBack cache a s k with links := m' } ∧ Inv cache' L' live ∧
    Moved L L' a j ∧ (j.1 = n ∨ j ∈ inCache ∧ a ∈ L j) ∧ (s.count = 1 → j = (n, .freeSlabs))

/-- **Where a freed object leaves its slab**: where it was, or in a list of the CPU that
frees, the list of free slabs if the object was the last. -/
theorem Inv.free_moved (h : Inv cache L live) (hcpu : IsCpu cpu) (hp : p ∈ live)
    (hr : slabCacheFree cache p cpu = .ok cache') :
    ∃ a s k, p = slot cache a k ∧ cache.slabs a = some s ∧ IsPage a ∧ k < cache.objPerSlab ∧
      TakesBack cache L (live.erase p) cpu.toNat cache' a s k := by
  have hn := hcpu.lt
  obtain ⟨a, k, ⟨s, hs, hk⟩, rfl⟩ := (h.objects.live_iff p).mp hp
  have hok := h.objects.slabOk a s hs
  have hpos := hok.count_pos hk
  have hle := hok.count_le
  obtain ⟨i, hi, ha⟩ := h.placed.mem_of_slab a s hs
  have hobj := h.objects.giveBack hs hk
  have hmove : ∀ {r : Except Stop SlabCache} list, r = .ok cache' →
      r = .ok (((givenBack cache a s k).delete a).pushTail (.head cpu.toNat list) a) →
      Fits cache.objPerSlab (s.giveBack k) list → (s.count = 1 → list = .freeSlabs) →
      TakesBack cache L (live.erase (slot cache a k)) cpu.toNat cache' a s k := by
    intro r list hr he hf hone
    rw [he, Except.ok.injEq] at hr
    subst hr
    have hj : (cpu.toNat, list) ∈ inCache := hn
    refine ⟨_, _, (cpu.toNat, list), rfl, ⟨h.placed.update (h.placed.linked.move hi hj ha) rfl rfl hj
      hf (h.placed.mem_moved hi ha), hobj _⟩, h.placed.mem_moved hi ha, Or.inl rfl, fun h1 => ?_⟩
    rw [hone h1]
  refine ⟨a, s, k, rfl, hs, h.objects.page a s hs, hok.below k hk, ?_⟩
  have heq := h.slabCacheFree_eq hcpu hs hk
  rw [slabIsFull, slabIsFree] at heq
  simp only [beq_iff_eq, SlabT.giveBack_count] at heq
  by_cases hz : s.count - 1 = 0
  · simp only [if_pos hz, ite_self] at heq
    exact hmove .freeSlabs hr heq hz (fun _ => rfl)
  · simp only [if_neg hz] at heq
    by_cases hf : s.count = cache.objPerSlab
    · rw [if_pos hf] at heq
      exact hmove .partialSlabs hr heq ⟨hz, by rw [SlabT.giveBack_count]; omega⟩ (fun h1 => by omega)
    · -- it was partial, and stays so
      rw [if_neg hf, hr, Except.ok.injEq] at heq
      have hpart := h.eq_partialSlabs hi ha hs hf (Nat.ne_of_gt hpos)
      refine ⟨cache.links, L, i, heq, ?_, h.placed.mem_same hi ha, Or.inr ⟨hi, ha⟩, fun h1 => by omega⟩
      rw [heq]
      refine ⟨h.placed.update h.placed.linked rfl rfl hi ?_ (h.placed.mem_same hi ha), hobj cache.links⟩
      rw [hpart]
      exact ⟨hz, by rw [SlabT.giveBack_count]; omega⟩

/-! ### Pages and objects -/

/-- The pages that hold a slab. -/
def Occupies (cache : SlabCache) (pages : Finset Addr) : Prop :=
  ∀ a, a ∈ pages ↔ cache.slabs a ≠ none

theorem Occupies.insert (h : Occupies cache pages)
    (hs : cache'.slabs = Function.update cache.slabs a (some s)) :
    Occupies cache' (insert a pages) := by
  intro b
  rw [Finset.mem_insert, h b, hs]
  by_cases hb : b = a
  · rw [hb, Function.update_self]
    exact iff_of_true (Or.inl rfl) (Option.some_ne_none s)
  · rw [Function.update_of_ne hb]
    exact or_iff_right hb

/-- The live objects, page by page. -/
theorem Inv.length_live (h : Inv cache L live) (hpages : Occupies cache pages) :
    live.length = ∑ a ∈ pages, (live.filter (fun p => addr2Slab p = a)).length := by
  rw [← List.toFinset_card_of_nodup h.objects.nodup, Finset.card_eq_sum_card_fiberwise
    (f := addr2Slab) (t := pages)]
  · refine Finset.sum_congr rfl (fun a _ => ?_)
    rw [← List.toFinset_card_of_nodup (h.objects.nodup.filter _), List.toFinset_filter]
    refine congrArg Finset.card (Finset.filter_congr (fun p _ => ?_))
    rw [decide_eq_true_eq]
  · intro p hp
    obtain ⟨a, k, hpa, hk, ⟨s, hs, _⟩, rfl⟩ := h.objects.exists_slot (List.mem_toFinset.mp hp)
    rw [addr2Slab_slot h.objects.sized hpa hk, Finset.mem_coe, hpages, hs]
    exact Option.some_ne_none s

theorem Inv.length_live_le (h : Inv cache L live) (hpages : Occupies cache pages) :
    live.length ≤ pages.card * cache.objPerSlab := by
  rw [h.length_live hpages]
  refine Finset.sum_le_card_nsmul pages _ _ (fun a ha => ?_)
  obtain ⟨s, hs⟩ := Option.ne_none_iff_exists'.mp ((hpages a).mp ha)
  rw [h.objects.count_live hs]
  exact (h.objects.slabOk a s hs).count_le

/-- All slabs are full. -/
theorem Inv.length_live_eq (h : Inv cache L live) (hpages : Occupies cache pages)
    (hfull : ∀ a s, cache.slabs a = some s → s.count = cache.objPerSlab) :
    live.length = pages.card * cache.objPerSlab := by
  rw [h.length_live hpages, Finset.sum_const_nat (fun a ha => ?_)]
  obtain ⟨s, hs⟩ := Option.ne_none_iff_exists'.mp ((hpages a).mp ha)
  rw [h.objects.count_live hs, hfull a s hs]

/-! ### One CPU -/

/-- The worlds a run of one CPU reaches, with the most objects that were live at once. -/
inductive Alone (start : SlabCache) (cpu : Int) : World → Nat → Prop
  | start : Alone start cpu ⟨start, []⟩ 0
  | alloc {w : World} {peak : Nat} {env : Env} {obj : Addr} {cache : SlabCache} :
      Alone start cpu w peak → env.Fresh w.cache →
      slabCacheAlloc w.cache cpu env = .ok (obj, cache) →
      Alone start cpu ⟨cache, afterAlloc w.live obj⟩ (max peak (afterAlloc w.live obj).length)
  | free {w : World} {peak : Nat} {p : Addr} {cache : SlabCache} : Alone start cpu w peak →
      p ∈ w.live → slabCacheFree w.cache p cpu = .ok cache →
      Alone start cpu ⟨cache, w.live.erase p⟩ peak
  | write {w : World} {peak : Nat} {p x : Addr} {v : BitVec 8} : Alone start cpu w peak →
      p ∈ w.live → p.toNat ≤ x.toNat → x.toNat < p.toNat + w.cache.objSize →
      Alone start cpu ⟨{ w.cache with bytes := Function.update w.cache.bytes x v }, w.live⟩ peak

/-- All slabs are in lists of CPU `n`, and no more of them than `peak` objects need. -/
structure Packed (n objPerSlab peak : Nat) (w : World) (L : ListId → List Addr)
    (pages : Finset Addr) : Prop where
  inv : Inv w.cache L w.live
  perSlab : w.cache.objPerSlab = objPerSlab
  own : ∀ i ∈ inCache, ∀ a ∈ L i, i.1 = n
  occupies : Occupies w.cache pages
  enough : peak ≤ pages.card * objPerSlab
  few : pages.card * objPerSlab < peak + objPerSlab
  live : w.live.length ≤ peak

variable {w : World} {N peak : Nat}

/-- An allocation that returns NULL leaves the cache as it is. -/
theorem Inv.alloc_null (h : Inv cache L live) (hcpu : IsCpu cpu) (henv : env.Fresh cache)
    (hr : slabCacheAlloc cache cpu env = .ok (0, cache')) : cache' = cache := by
  rcases h.alloc hcpu henv with ⟨a, s, k, m', L', he, _, ht⟩ | ⟨he, _⟩
  · rw [he, Except.ok.injEq, Prod.mk.injEq] at hr
    exact absurd hr.1 (slot_ne_zero h.objects.sized ht.page ht.lt)
  · rw [he, Except.ok.injEq, Prod.mk.injEq] at hr
    exact hr.2.symm

/-- When a CPU makes a slab, all there are, and they are its own, are full. -/
theorem Packed.full (h : Packed n N peak w L pages) (hn : n < maxCpus)
    (hpart : L (n, .partialSlabs) = []) (hfree : L (n, .freeSlabs) = []) :
    w.live.length = pages.card * N := by
  rw [← h.perSlab]
  refine h.inv.length_live_eq h.occupies (fun a s hs => ?_)
  obtain ⟨⟨c, list⟩, hi, ha⟩ := h.inv.placed.mem_of_slab a s hs
  have hc : c = n := h.own _ hi a ha
  subst hc
  obtain ⟨t, ht, hfull⟩ := h.inv.all_full hn hpart hfree list ha
  rw [hs, Option.some.injEq] at ht
  exact ht ▸ hfull

/-- **One allocation.** -/
theorem Packed.alloc (h : Packed cpu.toNat N peak w L pages) (hcpu : IsCpu cpu)
    (henv : env.Fresh w.cache) (hr : slabCacheAlloc w.cache cpu env = .ok (p, cache')) :
    ∃ L' pages', Packed cpu.toNat N (max peak (afterAlloc w.live p).length)
      ⟨cache', afterAlloc w.live p⟩ L' pages' := by
  by_cases hp : p = 0
  · subst hp
    rw [h.inv.alloc_null hcpu henv hr, afterAlloc, if_pos rfl, Nat.max_eq_left h.live]
    exact ⟨L, pages, h⟩
  obtain ⟨a, s, k, ⟨m', L', list, he, hinv, hmoved⟩, _, _, hwhere⟩ := h.inv.alloc_moved hcpu henv hr hp
  rw [Except.ok.injEq, Prod.mk.injEq] at he
  obtain ⟨rfl, rfl⟩ := he
  rw [afterAlloc, if_neg hp, List.length_cons]
  have hown : ∀ i ∈ inCache, ∀ b ∈ L' i, i.1 = cpu.toNat := by
    intro i hi b hb
    rcases hmoved.mem hi hb with rfl | hb
    · rfl
    · exact h.own i hi b hb
  have hpages : Occupies { taken w.cache a s k with links := m' } (insert a pages) :=
    h.occupies.insert (s := s.take k) rfl
  have hle := hinv.length_live_le hpages
  have hper : ({ taken w.cache a s k with links := m' } : SlabCache).objPerSlab = N := h.perSlab
  rw [hper, List.length_cons] at hle
  have henough := h.enough
  have hfew := h.few
  have hlive := h.live
  refine ⟨L', insert a pages, ⟨hinv, hper, hown, hpages, ?_, ?_, by
    rw [List.length_cons]; exact Nat.le_max_right _ _⟩⟩
  · refine Nat.max_le.mpr ⟨henough.trans (Nat.mul_le_mul_right N ?_), hle⟩
    exact Finset.card_le_card (Finset.subset_insert a pages)
  · rcases hwhere with ⟨_, _, hs⟩ | ⟨hnone, hpart, hfree⟩
    · have ha : a ∈ pages := (h.occupies a).mpr (by rw [hs]; exact Option.some_ne_none s)
      rw [Finset.insert_eq_of_mem ha]
      omega
    · -- a new slab, as all were full
      have ha : a ∉ pages := fun hm => (h.occupies a).mp hm hnone
      have hfull := h.full hcpu.lt hpart hfree
      rw [Finset.card_insert_of_notMem ha, Nat.add_mul, Nat.one_mul]
      omega

/-- **One object freed.** -/
theorem Packed.free (h : Packed cpu.toNat N peak w L pages) (hcpu : IsCpu cpu) (hp : p ∈ w.live)
    (hr : slabCacheFree w.cache p cpu = .ok cache') :
    ∃ L' pages', Packed cpu.toNat N peak ⟨cache', w.live.erase p⟩ L' pages' := by
  obtain ⟨a, s, k, rfl, hs, _, _, m', L', j, rfl, hinv, hmoved, hj, _⟩ :=
    h.inv.free_moved hcpu hp hr
  have ha : a ∈ pages := (h.occupies a).mpr (by rw [hs]; exact Option.some_ne_none s)
  have hpages : Occupies { givenBack w.cache a s k with links := m' } (insert a pages) :=
    h.occupies.insert (s := s.giveBack k) rfl
  rw [Finset.insert_eq_of_mem ha] at hpages
  refine ⟨L', pages, ⟨hinv, h.perSlab, fun i hi b hb => ?_, hpages, h.enough, h.few, ?_⟩⟩
  · rcases hmoved.mem hi hb with rfl | hb
    · exact hj.elim id (fun hj => h.own _ hj.1 a hj.2)
    · exact h.own i hi b hb
  · exact (List.length_erase_le ..).trans h.live

theorem Alone.packed (hstart : Inv cache (fun _ => []) []) (hnone : ∀ a, cache.slabs a = none)
    (hcpu : IsCpu cpu) (h : Alone cache cpu w peak) :
    ∃ L pages, Packed cpu.toNat cache.objPerSlab peak w L pages := by
  induction h with
  | start =>
    refine ⟨fun _ => [], ∅, ⟨hstart, rfl, fun i _ a ha => absurd ha List.not_mem_nil, fun a => ?_,
      Nat.zero_le _, ?_, Nat.le_refl 0⟩⟩
    · exact iff_of_false (Finset.notMem_empty a) (fun hne => hne (hnone a))
    · rw [Finset.card_empty, Nat.zero_mul, Nat.zero_add]
      exact hstart.objects.sized.perSlab_bounds.1
  | alloc _ henv hr ih =>
    obtain ⟨L, pages, hL⟩ := ih
    exact hL.alloc hcpu henv hr
  | free _ hp hr ih =>
    obtain ⟨L, pages, hL⟩ := ih
    exact hL.free hcpu hp hr
  | write _ hp h1 h2 ih =>
    obtain ⟨L, pages, hL⟩ := ih
    exact ⟨L, pages, ⟨hL.inv.write hp h1 h2 _, hL.perSlab, hL.own, hL.occupies, hL.enough, hL.few,
      hL.live⟩⟩

/-- **One CPU packs its objects.**  After every run in which one CPU makes all the calls, the
pages that hold a slab are as many as the objects filled when most of them were live. -/
theorem slabCache_packs (objSize : Nat) (objName : Option (List (BitVec 8))) (malloc : Bool)
    (links : Store Node) (bytes : Addr → BitVec 8) (cache : SlabCache)
    (hcreate : slabCacheCreate objSize objName malloc links bytes = some cache)
    (hfits : objSize + redZoneSize ≤ slabMemSize) (cpu : Int) (hcpu : IsCpu cpu) (w : World)
    (peak : Nat) (h : Alone cache cpu w peak) :
    ∃ pages : Finset Addr, (∀ a, a ∈ pages ↔ w.cache.slabs a ≠ none) ∧
      pages.card = (peak + cache.objPerSlab - 1) / cache.objPerSlab ∧ w.live.length ≤ peak := by
  have hinv := slabCacheCreate_inv hcreate hfits
  obtain ⟨L, pages, hL⟩ := h.packed hinv (slabCacheCreate_eq hcreate).2.2.2.2.2.2.2.2 hcpu
  have hpos := hinv.objects.sized.perSlab_bounds.1
  have henough := hL.enough
  have hfew := hL.few
  refine ⟨pages, hL.occupies, ?_, hL.live⟩
  refine (Nat.div_eq_of_lt_le (by omega) ?_).symm
  rw [Nat.add_mul, Nat.one_mul]
  omega

theorem slabCache_packs_exampleTwo :
    ∃ pages : Finset Addr, (∀ a, a ∈ pages ↔ exampleTwo.slabs a ≠ none) ∧
      pages.card = (2 + 63 - 1) / 63 ∧ ([4224, 4160] : List Addr).length ≤ 2 := by
  have hone : Alone exampleCache 0 ⟨exampleAlloc, [4160]⟩ 1 :=
    .alloc (w := ⟨exampleCache, []⟩) .start (fresh_some ⟨by decide, by decide⟩ rfl) exampleAlloc_eq
  exact slabCache_packs 32 _ _ _ _ exampleCache exampleCache_eq (by decide) 0 (by decide)
    ⟨exampleTwo, [4224, 4160]⟩ 2 (hone.alloc fresh_none exampleTwo_eq)

/-! ### Two CPUs -/

/-- The caches that rounds reach in which `cpu` allocates an object and `cpu'` frees it. -/
inductive Relay (start : SlabCache) (cpu cpu' : Int) : SlabCache → Nat → Prop
  | start : Relay start cpu cpu' start 0
  | round {cache cache₁ cache₂ : SlabCache} {n : Nat} {env : Env} {p : Addr} :
      Relay start cpu cpu' cache n → env.Fresh cache →
      slabCacheAlloc cache cpu env = .ok (p, cache₁) → p ≠ 0 →
      slabCacheFree cache₁ p cpu' = .ok cache₂ → Relay start cpu cpu' cache₂ (n + 1)

/-- Nothing is live, and all slabs are in the free list of the CPU that frees. -/
structure Hoarded (cpu cpu' : Int) (n : Nat) (cache : SlabCache) (L : ListId → List Addr)
    (pages : Finset Addr) : Prop where
  inv : Inv cache L []
  own : ∀ i ∈ inCache, ∀ a ∈ L i, i = (cpu'.toNat, .freeSlabs)
  occupies : Occupies cache pages
  card : pages.card = if cpu = cpu' then min n 1 else n

/-- The pages after an allocation, the slabs being with the CPU that frees. -/
theorem Hoarded.card_insert (h : Hoarded cpu cpu' n cache L pages) (hcpu : IsCpu cpu)
    (hcpu' : IsCpu cpu')
    (hwhere : (∃ list, a ∈ L (cpu.toNat, list) ∧ cache.slabs a = some s) ∨
      cache.slabs a = none ∧ L (cpu.toNat, .partialSlabs) = [] ∧ L (cpu.toNat, .freeSlabs) = []) :
    (insert a pages).card = if cpu = cpu' then min (n + 1) 1 else n + 1 := by
  have hcard := h.card
  rw [Nat.min_eq_right (Nat.le_add_left 1 n)]
  rcases hwhere with ⟨list, ha, hs⟩ | ⟨hnone, _, hfree⟩
  · -- the CPU has a slab, so it is the one that frees
    have hmem : a ∈ pages := (h.occupies a).mpr (by rw [hs]; exact Option.some_ne_none s)
    have hn := congrArg Prod.fst (h.own _ hcpu.lt a ha)
    have he : cpu = cpu' := by
      unfold IsCpu at hcpu hcpu'
      change cpu.toNat = cpu'.toNat at hn
      omega
    have hpos := Finset.card_pos.mpr ⟨a, hmem⟩
    rw [if_pos he] at hcard ⊢
    rw [Finset.insert_eq_of_mem hmem]
    omega
  · rw [Finset.card_insert_of_notMem fun hmem => (h.occupies a).mp hmem hnone, hcard]
    by_cases he : cpu = cpu'
    · -- no slab is free, and there is no other
      subst he
      have hempty : pages = ∅ := by
        refine Finset.eq_empty_of_forall_notMem (fun b hb => ?_)
        obtain ⟨t, ht⟩ := Option.ne_none_iff_exists'.mp ((h.occupies b).mp hb)
        obtain ⟨i, hi, hbi⟩ := h.inv.placed.mem_of_slab b t ht
        rw [h.own i hi b hbi, hfree] at hbi
        exact List.not_mem_nil hbi
      rw [hempty, Finset.card_empty] at hcard
      rw [if_pos rfl] at hcard ⊢
      rw [if_pos rfl, ← hcard]
    · rw [if_neg he, if_neg he]

/-- **The only object freed**: its slab goes to the free list of the CPU that frees. -/
theorem Inv.free_only (h : Inv cache L [p]) (hcpu : IsCpu cpu)
    (hr : slabCacheFree cache p cpu = .ok cache') :
    ∃ s L', cache'.slabs = Function.update cache.slabs (addr2Slab p) (some s) ∧ Inv cache' L' [] ∧
      Moved L L' (addr2Slab p) (cpu.toNat, .freeSlabs) := by
  obtain ⟨a, s, k, rfl, hs, hpage, hk, m', L', j, rfl, hinv, hmoved, _, hone⟩ :=
    h.free_moved hcpu List.mem_cons_self hr
  have haddr := addr2Slab_slot h.objects.sized hpage hk
  have hcount := h.objects.count_live hs
  rw [List.filter_cons, if_pos (decide_eq_true haddr), List.filter_nil] at hcount
  obtain rfl := hone hcount.symm
  rw [List.erase_cons_head] at hinv
  rw [haddr]
  exact ⟨s.giveBack k, L', rfl, hinv, hmoved⟩

/-- **One round.** -/
theorem Hoarded.round (h : Hoarded cpu cpu' n cache L pages) (hcpu : IsCpu cpu)
    (hcpu' : IsCpu cpu') (henv : env.Fresh cache) {cache₁ : SlabCache}
    (hr : slabCacheAlloc cache cpu env = .ok (p, cache₁)) (hp : p ≠ 0)
    (hf : slabCacheFree cache₁ p cpu' = .ok cache') :
    ∃ L' pages', Hoarded cpu cpu' (n + 1) cache' L' pages' := by
  obtain ⟨a, s, k, ⟨m', L₁, list, he, hinv, hmoved⟩, hpage, hk, hwhere⟩ :=
    h.inv.alloc_moved hcpu henv hr hp
  rw [Except.ok.injEq, Prod.mk.injEq] at he
  obtain ⟨rfl, rfl⟩ := he
  obtain ⟨s', L', hslabs, hinv', hmoved'⟩ := hinv.free_only hcpu' hf
  rw [addr2Slab_slot h.inv.objects.sized hpage hk] at hslabs hmoved'
  have hpages : Occupies { taken cache a s k with links := m' } (insert a pages) :=
    h.occupies.insert (s := s.take k) rfl
  have hpages' := hpages.insert hslabs
  rw [Finset.insert_idem] at hpages'
  refine ⟨L', insert a pages, hinv', fun i hi b hb => ?_, hpages', h.card_insert hcpu hcpu' hwhere⟩
  have hb' := (hmoved' i hi b).mp hb
  by_cases hba : b = a
  · rwa [if_pos hba] at hb'
  · -- no other slab has moved
    rw [if_neg hba, hmoved i hi b, if_neg hba] at hb'
    exact h.own i hi b hb'

theorem Relay.hoarded (hstart : Inv cache (fun _ => []) []) (hnone : ∀ a, cache.slabs a = none)
    (hcpu : IsCpu cpu) (hcpu' : IsCpu cpu') (h : Relay cache cpu cpu' cache' n) :
    ∃ L pages, Hoarded cpu cpu' n cache' L pages := by
  induction h with
  | start =>
    refine ⟨fun _ => [], ∅, hstart, fun i _ a ha => absurd ha List.not_mem_nil, fun a => ?_, ?_⟩
    · exact iff_of_false (Finset.notMem_empty a) (fun hne => hne (hnone a))
    · rw [Finset.card_empty, Nat.zero_min, ite_self]
  | round _ henv hr hp hf ih =>
    obtain ⟨L, pages, hL⟩ := ih
    exact hL.round hcpu hcpu' henv hr hp hf

/-- **Objects freed on another CPU cost a page each.**  After `n` rounds in which one CPU allocates
an object and another frees it, the cache holds `n` pages, none with an object in it; a CPU that
frees its own gets by with one. -/
theorem slabCache_hoards (objSize : Nat) (objName : Option (List (BitVec 8))) (malloc : Bool)
    (links : Store Node) (bytes : Addr → BitVec 8) (cache : SlabCache)
    (hcreate : slabCacheCreate objSize objName malloc links bytes = some cache)
    (hfits : objSize + redZoneSize ≤ slabMemSize) (cpu cpu' : Int) (hcpu : IsCpu cpu)
    (hcpu' : IsCpu cpu') (cache' : SlabCache) (n : Nat) (h : Relay cache cpu cpu' cache' n) :
    ∃ pages : Finset Addr, (∀ a, a ∈ pages ↔ cache'.slabs a ≠ none) ∧
      pages.card = (if cpu = cpu' then min n 1 else n) ∧
      ∀ a s, cache'.slabs a = some s → s.count = 0 := by
  obtain ⟨L, pages, hL⟩ := h.hoarded (slabCacheCreate_inv hcreate hfits)
    (slabCacheCreate_eq hcreate).2.2.2.2.2.2.2.2 hcpu hcpu'
  exact ⟨pages, hL.occupies, hL.card, fun a s hs => (hL.inv.objects.count_live hs).symm⟩

theorem eq_ok_of_isSome {r : Except Stop SlabCache} (cache : SlabCache)
    (h : r.toOption.isSome = true) : r = .ok (r.toOption.getD cache) := by
  cases r with
  | error _ => cases h
  | ok _ => rfl

/-- The cache after CPU 1 has freed the object CPU 0 had allocated. -/
@[irreducible] def exampleOver : SlabCache :=
  (slabCacheFree exampleAlloc 4160 1).toOption.getD exampleAlloc

theorem exampleOver_eq : slabCacheFree exampleAlloc 4160 1 = .ok exampleOver := by
  have h : (slabCacheFree exampleAlloc 4160 1).toOption.isSome = true := by decide +kernel
  unfold exampleOver
  exact eq_ok_of_isSome exampleAlloc h

/-- The cache after CPU 0 has allocated once more, from a new slab at page 8192. -/
@[irreducible] def exampleAgain : SlabCache :=
  cacheAfter exampleOver (slabCacheAlloc exampleOver 0 ⟨some 8192, true⟩)

theorem exampleAgain_eq : slabCacheAlloc exampleOver 0 ⟨some 8192, true⟩ = .ok (8256, exampleAgain) := by
  have h : (slabCacheAlloc exampleOver 0 ⟨some 8192, true⟩).toOption.map Prod.fst = some 8256 := by
    decide +kernel
  unfold exampleAgain
  exact eq_ok_of_fst exampleOver h

theorem slabCache_hoards_exampleAgain : ∃ cache', slabCacheFree exampleAgain 8256 1 = .ok cache' ∧
    ∃ pages : Finset Addr, (∀ a, a ∈ pages ↔ cache'.slabs a ≠ none) ∧
      pages.card = (if (0 : Int) = 1 then min 2 1 else 2) ∧
      ∀ a s, cache'.slabs a = some s → s.count = 0 := by
  have h : (slabCacheFree exampleAgain 8256 1).toOption.isSome = true := by decide +kernel
  have hnone : exampleOver.slabs 8192 = none := by decide +kernel
  have hone : Relay exampleCache 0 1 exampleOver 1 :=
    .round .start (fresh_some ⟨by decide, by decide⟩ rfl) exampleAlloc_eq (by decide) exampleOver_eq
  have htwo := Relay.round hone (fresh_some ⟨by decide, by decide⟩ hnone) exampleAgain_eq (by decide)
    (eq_ok_of_isSome exampleAgain h)
  exact ⟨_, eq_ok_of_isSome exampleAgain h, slabCache_hoards 32 _ _ _ _ exampleCache exampleCache_eq
    (by decide) 0 1 (by decide) (by decide) _ 2 htwo⟩

end DataStructures.Slab
