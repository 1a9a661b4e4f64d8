import DataStructures.Allocator.Slab.Alloc
import Mathlib.Data.Set.Insert

/-!
# Runs of a slab cache

`World` is a cache together with the objects its callers hold: an object is live from
the `slab_cache_alloc` that returns it to the `slab_cache_free` it is given to.
`Reach cache envs shrinks` are the worlds a run from the new cache `cache` reaches.  Any
call may be made by any CPU, live objects only are freed, and in between the callers
may write what they like into the objects they hold.  `envs` says what the system may
answer and `shrinks` when `slab_cache_shrink` may be called.

`slabCacheCreate_inv`: a new cache satisfies the invariant, if its objects fit.
`Reach.inv`: so does every world of a run that shrinks only where there is nothing to
shrink.
-/

namespace DataStructures.Slab

open Lib Kdlist
open Buddy (Addr)

/-- A cache and the objects its callers hold. -/
structure World where
  cache : SlabCache
  live : List Addr

/-- A CPU id in range. -/
def IsCpu (cpu : Int) : Prop := 0 ≤ cpu ∧ cpu < maxCpus

instance (cpu : Int) : Decidable (IsCpu cpu) := inferInstanceAs (Decidable (_ ∧ _))

/-- The objects in the callers' hands after `slab_cache_alloc` returned `obj`. -/
def afterAlloc (live : List Addr) (obj : Addr) : List Addr := if obj = 0 then live else obj :: live

/-- The worlds a run from a new cache reaches. -/
inductive Reach (start : SlabCache) (envs : Env → Prop) (shrinks : World → Int → Prop) : World → Prop
  | start : Reach start envs shrinks ⟨start, []⟩
  | alloc {w : World} {cpu : Int} {env : Env} {obj : Addr} {cache : SlabCache} :
      Reach start envs shrinks w → IsCpu cpu → envs env → env.Fresh w.cache →
      slabCacheAlloc w.cache cpu env = .ok (obj, cache) →
      Reach start envs shrinks ⟨cache, afterAlloc w.live obj⟩
  | free {w : World} {cpu : Int} {p : Addr} {cache : SlabCache} : Reach start envs shrinks w →
      IsCpu cpu → p ∈ w.live → slabCacheFree w.cache p cpu = .ok cache →
      Reach start envs shrinks ⟨cache, w.live.erase p⟩
  | write {w : World} {p x : Addr} {v : BitVec 8} : Reach start envs shrinks w → p ∈ w.live →
      p.toNat ≤ x.toNat → x.toNat < p.toNat + w.cache.objSize →
      Reach start envs shrinks
        ⟨{ w.cache with bytes := Function.update w.cache.bytes x v }, w.live⟩
  | shrink {w : World} {cpu : Int} {fuel : Nat} {cache : SlabCache} : Reach start envs shrinks w →
      IsCpu cpu → shrinks w cpu → slabCacheShrink fuel w.cache cpu = .ok cache →
      Reach start envs shrinks ⟨cache, w.live⟩

/-- The system may answer anything. -/
def anyEnv (_ : Env) : Prop := True

/-- `slab_cache_shrink` is not called. -/
def noShrink (_ : World) (_ : Int) : Prop := False

/-- `slab_cache_shrink` is called where the CPU has no free slabs. -/
def nothingToShrink (w : World) (cpu : Int) : Prop :=
  kdlistIsEmpty w.cache.links (.head cpu.toNat .freeSlabs) = true

theorem IsCpu.lt {cpu : Int} (h : IsCpu cpu) : cpu.toNat < maxCpus := by
  obtain ⟨h1, h2⟩ := h
  omega

/-! ### A new cache -/

/-- One more empty list. -/
theorem kdlistHeadInit_empty {m : Store Node} {I : Set ListId} {i : ListId}
    (h : Rings m I headOf (fun _ => [])) (hi : i ∉ I) :
    Rings (kdlistHeadInit m (headOf i)) (insert i I) headOf (fun _ => []) := by
  refine (kdlistHeadInit_rings h hi (fun j hj hm => ?_)).of_eq (fun j _ => ?_)
  · rw [List.mem_singleton, headOf, headOf, Node.head.injEq] at hm
    exact hi (Prod.ext hm.1 hm.2 ▸ hj)
  · by_cases hji : j = i
    · subst hji
      rw [Function.update_self]
    · rw [Function.update_of_ne hji]

theorem initHeads_rings (links : Store Node) (n : Nat) :
    Rings (initHeads links n) {i : ListId | i.1 < n} headOf (fun _ => []) := by
  induction n with
  | zero =>
    exact ⟨fun i hi => absurd hi (Nat.not_lt_zero _), fun i hi => absurd hi (Nat.not_lt_zero _)⟩
  | succ n ih =>
    have hstep : initHeads links (n + 1) = kdlistHeadInit (kdlistHeadInit (kdlistHeadInit
        (initHeads links n) (headOf (n, .fullSlabs))) (headOf (n, .partialSlabs)))
        (headOf (n, .freeSlabs)) := by
      rw [initHeads, List.range_succ, List.foldl_append]
      rfl
    have hset : {i : ListId | i.1 < n + 1} = insert (n, .freeSlabs) (insert (n, .partialSlabs)
        (insert (n, .fullSlabs) {i | i.1 < n})) := by
      ext i
      obtain ⟨c, list⟩ := i
      simp only [Set.mem_ofPred_eq, Set.mem_insert_iff, Prod.mk.injEq]
      cases list <;> simp <;> omega
    rw [hstep, hset]
    refine kdlistHeadInit_empty (kdlistHeadInit_empty (kdlistHeadInit_empty ih ?_) ?_) ?_
    · exact Nat.lt_irrefl n
    · simp
    · simp

section Create

variable {objSize : Nat} {objName : Option (List (BitVec 8))} {malloc : Bool} {links : Store Node}
  {bytes : Addr → BitVec 8} {cache : SlabCache}

/-- **What `slab_cache_create` returns.** -/
theorem slabCacheCreate_eq (h : slabCacheCreate objSize objName malloc links bytes = some cache) :
    slabObjMinSize ≤ objSize ∧ objSize ≤ slabObjMaxSize ∧ cache.objSize = objSize ∧
      cache.objSizeAlign = alignSize (objSize + redZoneSize) slabObjAlignment ∧
      cache.objPerSlab = slabMemSize / cache.objSizeAlign ∧
      cache.fullBytes = cache.objPerSlab / 64 % 256 ∧ cache.leftBits = cache.objPerSlab % 64 ∧
      cache.links = initHeads links maxCpus ∧ ∀ a, cache.slabs a = none := by
  unfold slabCacheCreate at h
  split at h
  · exact absurd h.symm (Option.some_ne_none cache)
  next hsize =>
    rw [not_or, Nat.not_lt, Nat.not_lt] at hsize
    cases objName with
    | none => exact absurd h.symm (Option.some_ne_none cache)
    | some name =>
      simp only at h
      split at h
      · exact absurd h.symm (Option.some_ne_none cache)
      split at h
      · exact absurd h.symm (Option.some_ne_none cache)
      rw [Option.some.injEq] at h
      subst h
      exact ⟨hsize.2, hsize.1, rfl, rfl, rfl, rfl, rfl, rfl, fun _ => rfl⟩

theorem slabCacheCreate_sized (h : slabCacheCreate objSize objName malloc links bytes = some cache)
    (hfits : objSize + redZoneSize ≤ slabMemSize) : Sized cache := by
  obtain ⟨_, _, hsize, halign, hper, hfull, hleft, _, _⟩ := slabCacheCreate_eq h
  have hle : objSize + redZoneSize ≤ 4096 := by
    rw [slabMemSize_eq] at hfits
    omega
  refine ⟨by rwa [hsize], ?_, hper, hfull, hleft⟩
  rw [halign, alignSize_eq hle, hsize]

theorem slabCacheCreate_linked (h : slabCacheCreate objSize objName malloc links bytes = some cache) :
    Linked cache.links (fun _ => []) := by
  obtain ⟨_, _, _, _, _, _, _, hlinks, _⟩ := slabCacheCreate_eq h
  rw [hlinks]
  exact initHeads_rings links maxCpus

/-- **A new cache satisfies the invariant**, if its objects fit. -/
theorem slabCacheCreate_inv (h : slabCacheCreate objSize objName malloc links bytes = some cache)
    (hfits : objSize + redZoneSize ≤ slabMemSize) : Inv cache (fun _ => []) [] := by
  obtain ⟨_, _, _, _, _, _, _, _, hnone⟩ := slabCacheCreate_eq h
  have hno : ∀ a s, cache.slabs a ≠ some s := fun a s hs => by
    rw [hnone a] at hs
    exact absurd hs.symm (Option.some_ne_none s)
  refine ⟨⟨slabCacheCreate_linked h, fun i _ a ha => absurd ha List.not_mem_nil,
    fun a s hs => absurd hs (hno a s)⟩, ⟨slabCacheCreate_sized h hfits,
    fun a s hs => absurd hs (hno a s), fun a s hs => absurd hs (hno a s), List.nodup_nil,
    fun p => ⟨fun hp => absurd hp List.not_mem_nil, fun hp => ?_⟩,
    fun p hp => absurd hp List.not_mem_nil⟩⟩
  obtain ⟨a, k, ⟨s, hs, _⟩, _⟩ := hp
  exact absurd hs (hno a s)

end Create

/-! ### Whole runs -/

section Steps

variable {cache : SlabCache} {L : ListId → List Addr} {live : List Addr} {env : Env} {cpu : Int}

/-- **Callers' writes stay in their own objects.** -/
theorem Inv.write (h : Inv cache L live) {p x : Addr} (hp : p ∈ live) (h1 : p.toNat ≤ x.toNat)
    (h2 : x.toNat < p.toNat + cache.objSize) (v : BitVec 8) :
    Inv { cache with bytes := Function.update cache.bytes x v } L live := by
  refine ⟨⟨h.placed.linked, h.placed.slab_of_mem, h.placed.mem_of_slab⟩,
    ⟨⟨h.objects.sized.fits, h.objects.sized.align, h.objects.sized.perSlab, h.objects.sized.full,
      h.objects.sized.left⟩, h.objects.page, h.objects.slabOk, h.objects.nodup, h.objects.live_iff,
      fun q hq => ?_⟩⟩
  refine (readU64_congr (fun y hy => ?_)).trans (h.objects.redZone q hq)
  refine Function.update_of_ne ?_ _ _
  rintro rfl
  obtain ⟨a, k, hpa, hk, _, rfl⟩ := h.objects.exists_slot hp
  obtain ⟨b, j, hpb, hj, _, rfl⟩ := h.objects.exists_slot hq
  have hsized := h.objects.sized
  have hy' := covers_redZone hsized hpb hj hy
  by_cases he : slot cache b j = slot cache a k
  · -- the object itself ends where its red zone begins
    have hred := toNat_redZone hsized hpb hj
    have hslot := toNat_slot hsized hpb hj
    have hend := hsized.slot_end hj
    have hle := hsized.align_bounds.2.2.1
    have hpage := hpb.2
    unfold Buddy.pageSize at hpage
    change (y - (slot cache b j + BitVec.ofNat 64 cache.objSize)).toNat < 8 at hy
    rw [BitVec.toNat_sub] at hy
    have hlt := y.isLt
    rw [← he] at h1 h2
    unfold redZoneSize at hle
    omega
  · exact slots_disjoint hsized hpb hpa hj hk he hy' ⟨h1, by omega⟩

/-- Shrinking where there are no free slabs does nothing. -/
theorem slabCacheShrink_nil (hcpu : IsCpu cpu) {fuel : Nat} {cache' : SlabCache}
    (hempty : kdlistIsEmpty cache.links (.head cpu.toNat .freeSlabs) = true)
    (hr : slabCacheShrink fuel cache cpu = .ok cache') : cache' = cache := by
  have hnext : (cache.links (.head cpu.toNat .freeSlabs)).next = .head cpu.toNat .freeSlabs :=
    beq_iff_eq.mp hempty
  have hrange : 0 ≤ cpu ∧ cpu < maxCpus := hcpu
  rw [slabCacheShrink, if_pos hrange, destroyList, hnext] at hr
  cases fuel with
  | zero => exact nomatch hr
  | succ fuel =>
    rw [destroyEach, if_pos rfl, Except.ok.injEq] at hr
    exact hr.symm

/-- **Every world of a run satisfies the invariant**, if the run shrinks only where
there is nothing to shrink. -/
theorem Reach.inv {envs : Env → Prop} {shrinks : World → Int → Prop} {w : World}
    (hstart : Inv cache (fun _ => []) [])
    (hshrinks : ∀ w cpu, shrinks w cpu → nothingToShrink w cpu)
    (h : Reach cache envs shrinks w) :
    w.cache.objSize = cache.objSize ∧ ∃ L, Inv w.cache L w.live := by
  induction h with
  | start => exact ⟨rfl, _, hstart⟩
  | @alloc w cpu env obj cache' _ hcpu _ henv hr ih =>
    obtain ⟨hsize, L, hL⟩ := ih
    rcases hL.alloc hcpu henv with ⟨a, s, k, m', L', he, _, ht⟩ | ⟨he, _⟩
    · rw [he, Except.ok.injEq, Prod.mk.injEq] at hr
      obtain ⟨rfl, rfl⟩ := hr
      rw [afterAlloc, if_neg (slot_ne_zero hL.objects.sized ht.page ht.lt)]
      exact ⟨hsize, L', ht.inv⟩
    · rw [he, Except.ok.injEq, Prod.mk.injEq] at hr
      obtain ⟨rfl, rfl⟩ := hr
      exact ⟨hsize, L, hL⟩
  | @free w cpu p cache' _ hcpu hp hr ih =>
    obtain ⟨hsize, L, hL⟩ := ih
    obtain ⟨a, s, k, m', L', _, _, _, he, hinv⟩ := hL.free_mem hcpu hp
    rw [he, Except.ok.injEq] at hr
    subst hr
    exact ⟨hsize, L', hinv⟩
  | write _ hp h1 h2 ih =>
    obtain ⟨hsize, L, hL⟩ := ih
    exact ⟨hsize, L, hL.write hp h1 h2 _⟩
  | @shrink w cpu fuel cache' _ hcpu hs hr ih =>
    obtain ⟨hsize, L, hL⟩ := ih
    rw [slabCacheShrink_nil hcpu (hshrinks w cpu hs) hr]
    exact ⟨hsize, L, hL⟩

end Steps

end DataStructures.Slab
