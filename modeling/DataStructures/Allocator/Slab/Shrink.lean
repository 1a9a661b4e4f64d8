import DataStructures.Allocator.Slab.Correct

/-!
# Slabs that have been destroyed

`slab_cache_destroy` and `slab_cache_shrink` both walk a list with
`kdlist_for_each_safe` and destroy the slabs they meet.  Neither deletes a slab from its
list.  After `slab_cache_destroy` nobody reads the lists again; after
`slab_cache_shrink` everybody does.

`slabCache_noneDestroyed`: **as long as `slab_cache_shrink` finds nothing to destroy, no
slab is used after it is destroyed**, and a call that does find something leaves the
destroyed slabs in their list.
-/

namespace DataStructures.Slab

open Lib Kdlist
open Buddy (Addr)

variable {cache : SlabCache} {L : ListId → List Addr} {live : List Addr} {a : Addr} {s : SlabT}
  {i : ListId} {fuel : Nat}

/-! ### Destroying the slabs of a list -/

namespace SlabCache

/-- The cache once the slabs `as` have been destroyed. -/
def without (cache : SlabCache) (as : List Addr) : SlabCache :=
  { cache with slabs := fun a => if a ∈ as then none else cache.slabs a }

@[simp] theorem without_links (cache : SlabCache) (as : List Addr) :
    (cache.without as).links = cache.links := rfl

theorem without_of_mem {as : List Addr} (h : a ∈ as) : (cache.without as).slabs a = none := if_pos h

theorem without_of_not_mem {as : List Addr} (h : a ∉ as) :
    (cache.without as).slabs a = cache.slabs a := if_neg h

@[simp] theorem without_nil (cache : SlabCache) : cache.without [] = cache := by
  simp only [without, List.not_mem_nil, if_false]

theorem without_append (cache : SlabCache) (as bs : List Addr) :
    (cache.without as).without bs = cache.without (as ++ bs) := by
  simp only [without, mk.injEq, true_and, and_true]
  funext a
  simp only [List.mem_append]
  by_cases hb : a ∈ bs
  · rw [if_pos hb, if_pos (Or.inr hb)]
  · rw [if_neg hb]
    simp only [hb, or_false]

end SlabCache

theorem slabDestroy_eq (h : cache.slabs a ≠ none) : slabDestroy cache a = .ok (cache.without [a]) := by
  obtain ⟨s, hs⟩ := Option.ne_none_iff_exists'.mp h
  rw [slabDestroy, load_of hs, ok_bind]
  refine congrArg Except.ok ?_
  simp only [SlabCache.without, SlabCache.mk.injEq, true_and, and_true, List.mem_singleton]
  funext b
  exact Function.update_apply ..

/-- The loop from position `pos` on, with the slabs `as` left. -/
theorem destroyEach_eq (head : ListId) :
    ∀ (as : List Addr) (cache : SlabCache) (pos : Node) (fuel : Nat),
    (as.map Node.slab ++ [headOf head]).IsChain (Link cache.links) →
    (as.map Node.slab ++ [headOf head]).head? = some pos →
    as.Nodup → (∀ a ∈ as, cache.slabs a ≠ none) → as.length < fuel →
    destroyEach (headOf head) fuel cache pos (cache.links pos).next = .ok (cache.without as) := by
  intro as
  induction as with
  | nil =>
    intro cache pos fuel _ hpos _ _ hfuel
    obtain ⟨n, rfl⟩ := Nat.exists_eq_succ_of_ne_zero (Nat.ne_of_gt hfuel)
    have he : headOf head = pos := Option.some.inj hpos
    rw [destroyEach, if_pos he.symm, SlabCache.without_nil]
  | cons a as ih =>
    intro cache pos fuel hchain hpos hnodup hlive hfuel
    rw [List.length_cons] at hfuel
    obtain ⟨n, rfl⟩ := Nat.exists_eq_succ_of_ne_zero (Nat.ne_of_gt (Nat.zero_lt_of_lt hfuel))
    have he : Node.slab a = pos := Option.some.inj hpos
    subst he
    obtain ⟨b, r, hr⟩ := List.exists_cons_of_ne_nil (show as.map Node.slab ++ [headOf head] ≠ [] by simp)
    rw [List.map_cons, List.cons_append, hr, List.isChain_cons_cons] at hchain
    have hnext : (cache.links (.slab a)).next = b := hchain.1.1
    obtain ⟨ha, hnodup⟩ := List.nodup_cons.mp hnodup
    have hne : Node.slab a ≠ headOf head := Node.noConfusion
    rw [destroyEach, if_neg hne, kdlistEntry, ok_bind,
      slabDestroy_eq (hlive a List.mem_cons_self), ok_bind, hnext]
    have hrest := ih (cache.without [a]) b n (by rw [hr]; exact hchain.2)
      (by rw [hr, List.head?_cons]) hnodup (fun c hc => ?_) (by omega)
    · rw [SlabCache.without_append, List.singleton_append] at hrest
      exact hrest
    · have hca : c ∉ [a] := by
        rw [List.mem_singleton]
        rintro rfl
        exact ha hc
      rw [SlabCache.without_of_not_mem hca]
      exact hlive c (List.mem_cons_of_mem _ hc)

/-- **One list.** -/
theorem destroyList_eq (h : Linked cache.links L) (hi : i ∈ inCache)
    (hlive : ∀ a ∈ L i, cache.slabs a ≠ none) (hfuel : (L i).length < fuel) :
    destroyList fuel cache (headOf i) = .ok (cache.without (L i)) := by
  have hring := h.ring i hi
  have hchain := hring.chain
  rw [List.cons_append] at hchain
  obtain ⟨b, r, hr⟩ := List.exists_cons_of_ne_nil (show (L i).map Node.slab ++ [headOf i] ≠ [] by simp)
  rw [hr, List.isChain_cons_cons] at hchain
  rw [destroyList, hchain.1.1]
  refine destroyEach_eq i (L i) cache b fuel ?_ ?_ (h.nodup hi) hlive hfuel
  · rw [hr]
    exact hchain.2
  · rw [hr, List.head?_cons]

/-- The slabs of the CPUs below `n`. -/
def slabsBelow (L : ListId → List Addr) (n : Nat) : List Addr :=
  (List.range n).flatMap (fun c => L (c, .fullSlabs) ++ L (c, .partialSlabs) ++ L (c, .freeSlabs))

theorem mem_slabsBelow {n : Nat} : a ∈ slabsBelow L n ↔ ∃ i : ListId, i.1 < n ∧ a ∈ L i := by
  rw [slabsBelow, List.mem_flatMap]
  refine ⟨?_, ?_⟩
  · intro h
    obtain ⟨c, hc, ha⟩ := h
    rw [List.mem_range] at hc
    rw [List.mem_append, List.mem_append] at ha
    rcases ha with (ha | ha) | ha
    · exact ⟨(c, .fullSlabs), hc, ha⟩
    · exact ⟨(c, .partialSlabs), hc, ha⟩
    · exact ⟨(c, .freeSlabs), hc, ha⟩
  · intro h
    obtain ⟨⟨c, list⟩, hc, ha⟩ := h
    refine ⟨c, List.mem_range.mpr hc, ?_⟩
    rw [List.mem_append, List.mem_append]
    cases list with
    | fullSlabs => exact Or.inl (Or.inl ha)
    | partialSlabs => exact Or.inl (Or.inr ha)
    | freeSlabs => exact Or.inr ha

/-- A linked slab is there. -/
theorem Placed.slab_ne_none (h : Placed cache L) (hi : i ∈ inCache) (ha : a ∈ L i) :
    cache.slabs a ≠ none := by
  obtain ⟨s, hs, _⟩ := h.slab_of_mem i hi a ha
  rw [hs]
  exact Option.some_ne_none s

/-- One more list, when the slabs `as` of other lists are gone. -/
theorem Placed.destroyList (h : Placed cache L) (hi : i ∈ inCache) (hfuel : (L i).length < fuel)
    (as : List Addr) (has : ∀ a ∈ as, ∃ j ∈ inCache, j ≠ i ∧ a ∈ L j) :
    Slab.destroyList fuel (cache.without as) (headOf i) = .ok (cache.without (as ++ L i)) := by
  rw [← SlabCache.without_append]
  refine destroyList_eq h.linked hi (fun a ha => ?_) hfuel
  have hnot : a ∉ as := by
    intro hm
    obtain ⟨j, hj, hne, haj⟩ := has a hm
    exact hne (h.linked.eq_of_mem hj hi haj ha)
  rw [SlabCache.without_of_not_mem hnot]
  exact h.slab_ne_none hi ha

/-- **`slab_cache_destroy` destroys every slab once.** -/
theorem Placed.slabCacheDestroy (h : Placed cache L) (hfuel : ∀ i ∈ inCache, (L i).length < fuel) :
    Slab.slabCacheDestroy fuel cache = .ok (cache.without (slabsBelow L maxCpus)) := by
  have hall : ∀ n ≤ maxCpus, (List.range n).foldlM (fun cache i => do
      let cache ← Slab.destroyList fuel cache (.head i .fullSlabs)
      let cache ← Slab.destroyList fuel cache (.head i .partialSlabs)
      Slab.destroyList fuel cache (.head i .freeSlabs)) cache =
        (.ok (cache.without (slabsBelow L n)) : Except Stop SlabCache) := by
    intro n
    induction n with
    | zero =>
      intro _
      refine congrArg Except.ok ?_
      exact (SlabCache.without_nil cache).symm
    | succ n ih =>
      intro hn
      have hi : ∀ list, (n, list) ∈ inCache := fun list => hn
      have hbelow : ∀ list, ∀ a ∈ slabsBelow L n, ∃ j ∈ inCache, j ≠ (n, list) ∧ a ∈ L j := by
        intro list a ha
        obtain ⟨j, hj, haj⟩ := mem_slabsBelow.mp ha
        refine ⟨j, Nat.lt_trans hj hn, ?_, haj⟩
        rintro rfl
        exact Nat.lt_irrefl _ hj
      have hsame : ∀ list list', list' ≠ list → ∀ a ∈ L (n, list'),
          ∃ j ∈ inCache, j ≠ (n, list) ∧ a ∈ L j := by
        intro list list' hne a ha
        refine ⟨(n, list'), hi list', ?_, ha⟩
        rw [Ne, Prod.mk.injEq, not_and]
        exact fun _ => hne
      rw [List.range_succ, List.foldlM_append, ih (Nat.le_of_lt hn), ok_bind, List.foldlM_cons]
      have hfull := h.destroyList (hi .fullSlabs) (hfuel _ (hi _)) _ (hbelow _)
      have hpart := h.destroyList (hi .partialSlabs) (hfuel _ (hi _))
        (slabsBelow L n ++ L (n, .fullSlabs)) (fun a ha => by
          rcases List.mem_append.mp ha with ha | ha
          · exact hbelow _ a ha
          · exact hsame _ .fullSlabs SlabList.noConfusion a ha)
      have hfree := h.destroyList (hi .freeSlabs) (hfuel _ (hi _))
        (slabsBelow L n ++ L (n, .fullSlabs) ++ L (n, .partialSlabs)) (fun a ha => by
          rcases List.mem_append.mp ha with ha | ha
          · rcases List.mem_append.mp ha with ha | ha
            · exact hbelow _ a ha
            · exact hsame _ .fullSlabs SlabList.noConfusion a ha
          · exact hsame _ .partialSlabs SlabList.noConfusion a ha)
      unfold headOf at hfull hpart hfree
      rw [hfull, ok_bind, hpart, ok_bind, hfree]
      refine congrArg Except.ok (congrArg cache.without ?_)
      simp only [slabsBelow, List.range_succ, List.flatMap_append, List.flatMap_singleton,
        List.append_assoc]
  exact hall maxCpus (Nat.le_refl _)

/-! ### Linked slabs exist -/

/-- The node `k` steps after the head of a list. -/
def nodeAt (cache : SlabCache) (i : ListId) : Nat → Node
  | 0 => headOf i
  | k + 1 => (cache.links (nodeAt cache i k)).next

/-- **Every slab linked in a list has been created and not destroyed.** -/
def AllLinkedExist (cache : SlabCache) : Prop :=
  ∀ i ∈ inCache, ∀ k, nodeAt cache i k = headOf i ∨
    ∃ a, nodeAt cache i k = .slab a ∧ cache.slabs a ≠ none

theorem Linked.nodeAt_mem (h : Linked cache.links L) (hi : i ∈ inCache) (k : Nat) :
    nodeAt cache i k ∈ headOf i :: (L i).map .slab := by
  have hring := h.ring i hi
  induction k with
  | zero => exact List.mem_cons_self
  | succ k ih =>
    rw [nodeAt]
    rcases List.mem_cons.mp ih with he | hm
    · rw [he]
      exact hring.head_neighbours_mem.2
    · obtain ⟨l, r, hlr⟩ := List.append_of_mem hm
      have hring' := hring
      rw [hlr] at hring' ⊢
      exact hring'.neighbours_mem.2

theorem Placed.allLinkedExist (h : Placed cache L) : AllLinkedExist cache := by
  intro i hi k
  rcases List.mem_cons.mp (h.linked.nodeAt_mem hi k) with he | hm
  · exact Or.inl he
  · obtain ⟨a, ha, he⟩ := List.mem_map.mp hm
    exact Or.inr ⟨a, he.symm, h.slab_ne_none hi ha⟩

/-- **`slab_cache_shrink` leaves destroyed slabs in their list**, if there are any. -/
theorem Placed.slabCacheShrink (h : Placed cache L) {cpu : Int} (hcpu : IsCpu cpu)
    (hfuel : (L (cpu.toNat, .freeSlabs)).length < fuel) :
    ∃ cache', slabCacheShrink fuel cache cpu = .ok cache' ∧
      (AllLinkedExist cache' ↔ kdlistIsEmpty cache.links (.head cpu.toNat .freeSlabs) = true) := by
  have hi : (cpu.toNat, SlabList.freeSlabs) ∈ inCache := hcpu.lt
  have hrange : 0 ≤ cpu ∧ cpu < maxCpus := hcpu
  refine ⟨cache.without (L (cpu.toNat, .freeSlabs)), ?_, ?_⟩
  · rw [Slab.slabCacheShrink, if_pos hrange]
    exact destroyList_eq h.linked hi (fun a ha => h.slab_ne_none hi ha) hfuel
  · cases hL : L (cpu.toNat, .freeSlabs) with
    | nil =>
      rw [SlabCache.without_nil]
      exact iff_of_true h.allLinkedExist (beq_iff_eq.mpr (h.linked.next_nil hi hL))
    | cons a r =>
      have hnext := h.linked.next_cons hi hL
      refine iff_of_false (fun hall => ?_) (fun hempty => ?_)
      · -- the first slab of the list is gone
        have hnode : nodeAt (cache.without (a :: r)) (cpu.toNat, .freeSlabs) 1 = .slab a := hnext
        rcases hall _ hi 1 with he | ⟨b, he, hb⟩
        · rw [hnode] at he
          exact Node.noConfusion he
        · rw [hnode, Node.slab.injEq] at he
          subst he
          exact hb (SlabCache.without_of_mem List.mem_cons_self)
      · have he : (cache.links (headOf (cpu.toNat, .freeSlabs))).next =
            headOf (cpu.toNat, .freeSlabs) := beq_iff_eq.mp hempty
        rw [hnext] at he
        exact Node.noConfusion he

/-! ### Whole runs -/

section Runs

variable {objSize : Nat} {objName : Option (List (BitVec 8))} {malloc : Bool} {links : Store Node}
  {bytes : Addr → BitVec 8}

/-- What `slab_cache_alloc` does on a cache whose objects do not fit. -/
theorem slabCacheAlloc_unfit_cases
    (hcreate : slabCacheCreate objSize objName malloc links bytes = some cache)
    (hbig : ¬ objSize + redZoneSize ≤ slabMemSize) {cpu : Int} (hcpu : IsCpu cpu) {env : Env}
    (henv : env.Fresh cache) :
    slabCacheAlloc cache cpu env = .ok (0, cache) ∨
      ∃ cache', slabCacheAlloc cache cpu env = .error (.assertion cache') := by
  by_cases hf : env.page = none ∨ env.calloc = false
  · left
    rw [slabCacheAlloc_start env hcreate hcpu, newSlab, slabCreate_fail henv hf, ok_bind]
    rfl
  · obtain ⟨hpage, hcalloc⟩ := not_or.mp hf
    rw [Bool.not_eq_false] at hcalloc
    exact Or.inr (slabCacheAlloc_unfit hcreate hbig hcpu ⟨hpage, hcalloc⟩ henv)

/-- A run on such a cache gets nowhere. -/
theorem Reach.unfit {envs : Env → Prop} {w : World}
    (hcreate : slabCacheCreate objSize objName malloc links bytes = some cache)
    (hbig : ¬ objSize + redZoneSize ≤ slabMemSize) (h : Reach cache envs nothingToShrink w) :
    w = ⟨cache, []⟩ := by
  induction h with
  | start => rfl
  | @alloc w cpu env obj cache' _ hcpu _ henv hr ih =>
    subst ih
    rcases slabCacheAlloc_unfit_cases hcreate hbig hcpu henv with he | ⟨cache'', he⟩
    · rw [he, Except.ok.injEq, Prod.mk.injEq] at hr
      obtain ⟨rfl, rfl⟩ := hr
      rfl
    · rw [he] at hr
      exact nomatch hr
  | free _ _ hp _ ih =>
    subst ih
    exact absurd hp List.not_mem_nil
  | write _ hp _ _ ih =>
    subst ih
    exact absurd hp List.not_mem_nil
  | shrink _ hcpu hs hr ih =>
    subst ih
    rw [slabCacheShrink_nil hcpu hs hr]

/-- Whether its objects fit or not, the slabs of a cache are the linked ones. -/
theorem Reach.placed {w : World}
    (hcreate : slabCacheCreate objSize objName malloc links bytes = some cache)
    (h : Reach cache anyEnv nothingToShrink w) : ∃ L, Placed w.cache L := by
  by_cases hfits : objSize + redZoneSize ≤ slabMemSize
  · obtain ⟨_, L, hL⟩ := h.inv (slabCacheCreate_inv hcreate hfits) (fun _ _ hs => hs)
    exact ⟨L, hL.placed⟩
  · obtain ⟨_, _, _, _, _, _, _, _, hnone⟩ := slabCacheCreate_eq hcreate
    rw [h.unfit hcreate hfits]
    refine ⟨fun _ => [], slabCacheCreate_linked hcreate, fun i _ a ha => absurd ha List.not_mem_nil,
      fun a s hs => ?_⟩
    rw [hnone a] at hs
    exact absurd hs.symm (Option.some_ne_none s)

end Runs

/-- A call that has returned no object has handed out none of a destroyed slab. -/
theorem null_live {r : Except Stop (Addr × SlabCache)} (hr : r = .ok (0, cache)) :
    r ≠ .error .undefined ∧
      ∀ p cache', r = .ok (p, cache') → p ≠ 0 → cache'.slabs (addr2Slab p) ≠ none := by
  subst hr
  refine ⟨nofun, fun p cache' he hp => ?_⟩
  rw [Except.ok.injEq, Prod.mk.injEq] at he
  exact absurd he.1.symm hp

/-- An object is in a slab that exists. -/
theorem Inv.alloc_live (h : Inv cache L live) {cpu : Int} (hcpu : IsCpu cpu) {env : Env}
    (henv : env.Fresh cache) :
    slabCacheAlloc cache cpu env ≠ .error .undefined ∧
      ∀ p cache', slabCacheAlloc cache cpu env = .ok (p, cache') → p ≠ 0 →
        cache'.slabs (addr2Slab p) ≠ none := by
  rcases h.alloc hcpu henv with ⟨a, s, k, m', L', hr, _, ht⟩ | ⟨hr, _⟩
  · rw [hr]
    refine ⟨nofun, fun p cache' he _ => ?_⟩
    rw [Except.ok.injEq, Prod.mk.injEq] at he
    obtain ⟨rfl, rfl⟩ := he
    rw [addr2Slab_slot h.objects.sized ht.page ht.lt]
    have hself : (taken cache a s k).slabs a = some (s.take k) := Function.update_self ..
    exact fun hnone => Option.some_ne_none _ (hself.symm.trans hnone)
  · exact null_live hr

/-- **No slab is used after it is destroyed, as long as `slab_cache_shrink` finds
nothing to destroy.**  In every world of such a run the linked slabs exist;
`slab_cache_alloc` touches no other slab, and the object it returns is in one that
exists; `slab_cache_free` returns; and `slab_cache_destroy` destroys every slab, none of
them twice.  A `slab_cache_shrink` that finds something breaks this. -/
theorem slabCache_noneDestroyed (objSize : Nat) (objName : Option (List (BitVec 8))) (malloc : Bool)
    (links : Store Node) (bytes : Addr → BitVec 8) (cache : SlabCache)
    (hcreate : slabCacheCreate objSize objName malloc links bytes = some cache) (w : World)
    (h : Reach cache anyEnv nothingToShrink w) :
    AllLinkedExist w.cache ∧
    (∀ cpu env, IsCpu cpu → env.Fresh w.cache → slabCacheAlloc w.cache cpu env ≠ .error .undefined ∧
      ∀ p cache', slabCacheAlloc w.cache cpu env = .ok (p, cache') → p ≠ 0 →
        cache'.slabs (addr2Slab p) ≠ none) ∧
    (∀ p ∈ w.live, ∀ cpu, IsCpu cpu → ∃ cache', slabCacheFree w.cache p cpu = .ok cache') ∧
    ∃ n, ∀ fuel, n < fuel →
      (∃ cache', slabCacheDestroy fuel w.cache = .ok cache' ∧ ∀ a, cache'.slabs a = none) ∧
      ∀ cpu, IsCpu cpu → ∃ cache', slabCacheShrink fuel w.cache cpu = .ok cache' ∧
        (AllLinkedExist cache' ↔ nothingToShrink w cpu) := by
  obtain ⟨L, hL⟩ := h.placed hcreate
  refine ⟨hL.allLinkedExist, fun cpu env hcpu henv => ?_, fun p hp cpu hcpu => ?_,
    (slabsBelow L maxCpus).length, fun fuel hfuel => ?_⟩
  · by_cases hfits : objSize + redZoneSize ≤ slabMemSize
    · obtain ⟨_, L, hL⟩ := h.inv (slabCacheCreate_inv hcreate hfits) (fun _ _ hs => hs)
      exact hL.alloc_live hcpu henv
    · have hw := h.unfit hcreate hfits
      subst hw
      rcases slabCacheAlloc_unfit_cases hcreate hfits hcpu henv with hr | ⟨cache', hr⟩
      · exact null_live hr
      · rw [hr]
        refine ⟨fun he => ?_, fun p cache' he _ => nomatch he⟩
        exact Stop.noConfusion (Except.error.inj he)
  · by_cases hfits : objSize + redZoneSize ≤ slabMemSize
    · obtain ⟨_, L, hL⟩ := h.inv (slabCacheCreate_inv hcreate hfits) (fun _ _ hs => hs)
      obtain ⟨a, s, k, m', L', _, _, _, hr, _⟩ := hL.free_mem hcpu hp
      exact ⟨_, hr⟩
    · rw [h.unfit hcreate hfits] at hp
      exact absurd hp List.not_mem_nil
  · have hlt : ∀ i ∈ inCache, (L i).length < fuel := by
      intro i hi
      have hsub : L i ⊆ slabsBelow L maxCpus := fun a ha => mem_slabsBelow.mpr ⟨i, hi, ha⟩
      exact Nat.lt_of_le_of_lt ((hL.linked.nodup hi).subperm hsub).length_le hfuel
    refine ⟨⟨_, hL.slabCacheDestroy hlt, fun a => ?_⟩, fun cpu hcpu =>
      hL.slabCacheShrink hcpu (hlt _ hcpu.lt)⟩
    by_cases ha : a ∈ slabsBelow L maxCpus
    · exact SlabCache.without_of_mem ha
    · rw [SlabCache.without_of_not_mem ha]
      by_contra hs
      obtain ⟨s, hs⟩ := Option.ne_none_iff_exists'.mp hs
      obtain ⟨i, hi, hai⟩ := hL.mem_of_slab a s hs
      exact ha (mem_slabsBelow.mpr ⟨i, hi, hai⟩)

theorem slabCache_noneDestroyed_exampleThree :
    AllLinkedExist exampleThree ∧
    (∀ cpu env, IsCpu cpu → env.Fresh exampleThree →
      slabCacheAlloc exampleThree cpu env ≠ .error .undefined ∧
      ∀ p cache', slabCacheAlloc exampleThree cpu env = .ok (p, cache') → p ≠ 0 →
        cache'.slabs (addr2Slab p) ≠ none) ∧
    (∀ p ∈ ([8256, 4224, 4160] : List Addr), ∀ cpu, IsCpu cpu →
      ∃ cache', slabCacheFree exampleThree p cpu = .ok cache') ∧
    ∃ n, ∀ fuel, n < fuel →
      (∃ cache', slabCacheDestroy fuel exampleThree = .ok cache' ∧ ∀ a, cache'.slabs a = none) ∧
      ∀ cpu, IsCpu cpu → ∃ cache', slabCacheShrink fuel exampleThree cpu = .ok cache' ∧
        (AllLinkedExist cache' ↔ nothingToShrink ⟨exampleThree, [8256, 4224, 4160]⟩ cpu) :=
  slabCache_noneDestroyed 32 _ _ _ _ exampleCache exampleCache_eq
    ⟨exampleThree, [8256, 4224, 4160]⟩ (exampleThree_reach trivial trivial trivial)

/-- The cache after CPU 0 has freed the only object, whose slab is free now. -/
@[irreducible] def exampleFree : SlabCache :=
  match slabCacheFree exampleAlloc 4160 0 with
  | .ok cache => cache
  | .error _ => exampleAlloc

/-- The cache after CPU 0 has been shrunk. -/
@[irreducible] def exampleShrink : SlabCache :=
  match slabCacheShrink 2 exampleFree 0 with
  | .ok cache => cache
  | .error _ => exampleFree

set_option maxRecDepth 20000 in
/-- **After `slab_cache_shrink` the destroyed slab at page 4096 is still linked**, and
the next allocation and the final `slab_cache_destroy` use it. -/
theorem slabCache_usesDestroyed :
    Reach exampleCache anyEnv (fun _ _ => True) ⟨exampleShrink, []⟩ ∧
    nodeAt exampleShrink (0, .freeSlabs) 1 = .slab 4096 ∧ exampleShrink.slabs 4096 = none ∧
    ¬ AllLinkedExist exampleShrink ∧
    slabCacheAlloc exampleShrink 0 ⟨some 8192, true⟩ = .error .undefined ∧
    slabCacheDestroy 2 exampleShrink = .error .undefined := by
  have hfree : slabCacheFree exampleAlloc 4160 0 = .ok exampleFree := by
    unfold exampleFree exampleAlloc
    rfl
  have hshrink : slabCacheShrink 2 exampleFree 0 = .ok exampleShrink := by
    unfold exampleShrink exampleFree exampleAlloc
    rfl
  have hnode : nodeAt exampleShrink (0, .freeSlabs) 1 = .slab 4096 := by
    unfold exampleShrink exampleFree exampleAlloc
    rfl
  have hgone : exampleShrink.slabs 4096 = none := by
    unfold exampleShrink exampleFree exampleAlloc
    rfl
  refine ⟨?_, hnode, hgone, fun hall => ?_, ?_, ?_⟩
  · have hstart : Reach exampleCache anyEnv (fun _ _ => True) ⟨exampleAlloc, [4160]⟩ :=
      exampleAlloc_reach trivial
    exact Reach.shrink (Reach.free hstart (by decide) List.mem_cons_self hfree) (by decide) trivial hshrink
  · rcases hall (0, .freeSlabs) (show 0 < maxCpus by decide) 1 with he | ⟨a, he, ha⟩
    · rw [hnode] at he
      exact Node.noConfusion he
    · rw [hnode, Node.slab.injEq] at he
      subst he
      exact ha hgone
  · unfold exampleShrink exampleFree exampleAlloc
    rfl
  · unfold exampleShrink exampleFree exampleAlloc
    rfl

end DataStructures.Slab
