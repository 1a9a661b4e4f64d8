import DataStructures.Allocator.Slab.Invariant

/-!
# One call

What `slab_cache_alloc` and `slab_cache_free` do to a cache that satisfies the
invariant.  `Inv.alloc`: an allocation takes a free slot of a slab that was in one of
the lists, or of a new slab if all slabs of the CPU are full, or it returns NULL
because the system has refused a new slab.  `Inv.free`: freeing a live object gives
its slot back.

Both are put together from what happens to the objects (`Objects.take`,
`Objects.giveBack`) and to the lists (`Placed.update`).
-/

namespace DataStructures.Slab

open Lib Kdlist
open Buddy (Addr)

variable {cache : SlabCache} {L : ListId → List Addr} {live : List Addr} {a : Addr} {s : SlabT} {k : Nat}

/-! ### The objects -/

/-- The used slots of a slab are the bits that are set. -/
theorem used_iff (hs : cache.slabs a = some s) {j : Nat} :
    Used cache a j ↔ bitAt s.bitmap j = true := by
  refine ⟨fun hu => ?_, fun hu => ⟨s, hs, hu⟩⟩
  obtain ⟨t, ht, hu⟩ := hu
  rw [hs, Option.some.injEq] at ht
  exact ht ▸ hu

theorem used_setSlab {s' : SlabT} {b : Addr} {j : Nat} :
    Used (cache.setSlab a s') b j ↔ if b = a then bitAt s'.bitmap j = true else Used cache b j := by
  split
  next h =>
    subst h
    exact used_iff (Function.update_self ..)
  next h =>
    unfold Used SlabCache.setSlab
    dsimp only
    rw [Function.update_of_ne h]

/-- The bits that are set after a slot has been taken. -/
theorem used_taken (hs : cache.slabs a = some s) (hlt : k < 64 * s.bitmap.length) {b : Addr} {j : Nat} :
    Used (taken cache a s k) b j ↔ Used cache b j ∨ (b = a ∧ j = k) := by
  have h : Used (taken cache a s k) b j ↔
      Used (cache.setSlab a (s.take k)) b j := Iff.rfl
  rw [h, used_setSlab]
  split
  next hb =>
    subst hb
    rw [SlabT.take, bitAt_setBit hlt, Bool.or_eq_true, decide_eq_true_eq, used_iff hs]
    exact or_congr_right (and_iff_right rfl).symm
  next hb => exact ⟨Or.inl, fun hu => hu.resolve_right (fun hc => hb hc.1)⟩

/-- The bits that are set after a slot has been given back. -/
theorem used_givenBack (hs : cache.slabs a = some s) (hk : bitAt s.bitmap k = true) {b : Addr}
    {j : Nat} : Used (givenBack cache a s k) b j ↔ Used cache b j ∧ ¬ (b = a ∧ j = k) := by
  rw [givenBack, used_setSlab]
  split
  next hb =>
    subst hb
    rw [SlabT.giveBack, bitAt_clearBit (bitAt_lt hk), Bool.and_eq_true, Bool.not_eq_true',
      decide_eq_false_iff_not, used_iff hs]
    exact and_congr_right (fun _ => not_congr (and_iff_right rfl).symm)
  next hb => exact ⟨fun hu => ⟨hu, fun hc => hb hc.1⟩, fun hu => hu.1⟩

theorem Used.lt (h : Objects cache live) (hu : Used cache a k) :
    IsPage a ∧ k < cache.objPerSlab := by
  obtain ⟨s, hs, hk⟩ := hu
  exact ⟨h.page a s hs, (h.slabOk a s hs).below k hk⟩

/-- A live object is a slot of a page. -/
theorem Objects.exists_slot (h : Objects cache live) {p : Addr} (hp : p ∈ live) :
    ∃ a k, IsPage a ∧ k < cache.objPerSlab ∧ Used cache a k ∧ p = slot cache a k := by
  obtain ⟨a, k, hu, he⟩ := (h.live_iff p).mp hp
  obtain ⟨hpa, hk⟩ := hu.lt h
  exact ⟨a, k, hpa, hk, hu, he⟩

/-- A slot is live if and only if its bit is set. -/
theorem Objects.slot_mem (h : Objects cache live) (hp : IsPage a) (hk : k < cache.objPerSlab) :
    slot cache a k ∈ live ↔ Used cache a k := by
  rw [h.live_iff]
  refine ⟨fun hm => ?_, fun hu => ⟨a, k, hu, rfl⟩⟩
  obtain ⟨b, j, hu, he⟩ := hm
  obtain ⟨hpb, hj⟩ := hu.lt h
  obtain ⟨rfl, rfl⟩ := slot_inj h.sized hp hpb hk hj he
  exact hu

/-- **A new red zone touches no live object.** -/
theorem Objects.redZone_disjoint (h : Objects cache live) (hp : IsPage a) (hk : k < cache.objPerSlab)
    (hn : ¬ Used cache a k) {q x : Addr} (hq : q ∈ live) (hx : Covers cache q x) :
    ¬ (x - (slot cache a k + BitVec.ofNat 64 cache.objSize)).toNat < 8 := by
  intro hlt
  obtain ⟨b, j, hu, rfl⟩ := (h.live_iff q).mp hq
  obtain ⟨hpb, hj⟩ := hu.lt h
  have hne : slot cache b j ≠ slot cache a k := fun he =>
    hn ((h.slot_mem hp hk).mp (he ▸ hq))
  exact slots_disjoint h.sized hpb hp hj hk hne hx (covers_redZone h.sized hp hk hlt)

/-- Replacing one slab. -/
theorem Objects.update (h : Objects cache live) (hp : IsPage a) {s' t : SlabT} {b : Addr}
    (hok : SlabOk cache.objPerSlab s') (ht : Function.update cache.slabs a (some s') b = some t) :
    IsPage b ∧ SlabOk cache.objPerSlab t := by
  by_cases hb : b = a
  · subst hb
    rw [Function.update_self, Option.some.injEq] at ht
    exact ⟨hp, ht ▸ hok⟩
  · rw [Function.update_of_ne hb] at ht
    exact ⟨h.page b t ht, h.slabOk b t ht⟩

/-- **Taking a slot** makes it live. -/
theorem Objects.take (h : Objects cache live) (hs : cache.slabs a = some s)
    (hk : k < cache.objPerSlab) (hc : bitAt s.bitmap k = false) (m' : Store Node) :
    Objects { taken cache a s k with links := m' } (slot cache a k :: live) := by
  have hp := h.page a s hs
  have hok := h.slabOk a s hs
  have hu := @used_taken cache a s k hs (hok.lt_length hk)
  have hn : ¬ Used cache a k := by
    intro hu
    obtain ⟨t, ht, hu⟩ := hu
    rw [hs, Option.some.injEq] at ht
    rw [← ht, hc] at hu
    exact Bool.noConfusion hu
  refine ⟨⟨h.sized.fits, h.sized.align, h.sized.perSlab, h.sized.full, h.sized.left⟩,
    fun b t ht => (h.update hp (hok.take hk hc) ht).1,
    fun b t ht => (h.update hp (hok.take hk hc) ht).2, ?_, fun p => ?_, fun p hp' => ?_⟩
  · rw [List.nodup_cons, h.slot_mem hp hk]
    exact ⟨hn, h.nodup⟩
  · rw [List.mem_cons, h.live_iff]
    refine ⟨?_, ?_⟩
    · intro hm
      rcases hm with rfl | ⟨b, j, hub, rfl⟩
      · exact ⟨a, k, hu.mpr (Or.inr ⟨rfl, rfl⟩), rfl⟩
      · exact ⟨b, j, hu.mpr (Or.inl hub), rfl⟩
    · intro hm
      obtain ⟨b, j, hub, rfl⟩ := hm
      rcases hu.mp hub with hub | ⟨rfl, rfl⟩
      · exact Or.inr ⟨b, j, hub, rfl⟩
      · exact Or.inl rfl
  · rcases List.mem_cons.mp hp' with rfl | hq
    · exact readU64_writeU64
    · refine (readU64_congr (fun x hx => writeU64_of_not ?_)).trans (h.redZone p hq)
      refine h.redZone_disjoint hp hk hn hq ?_
      obtain ⟨b, j, hub, rfl⟩ := (h.live_iff p).mp hq
      obtain ⟨hpb, hj⟩ := hub.lt h
      exact covers_redZone h.sized hpb hj hx

/-- **Giving a slot back.** -/
theorem Objects.giveBack (h : Objects cache live) (hs : cache.slabs a = some s)
    (hk : bitAt s.bitmap k = true) (m' : Store Node) :
    Objects { givenBack cache a s k with links := m' } (live.erase (slot cache a k)) := by
  have hp := h.page a s hs
  have hok := h.slabOk a s hs
  have hkn := hok.below k hk
  have hu := @used_givenBack cache a s k hs hk
  refine ⟨⟨h.sized.fits, h.sized.align, h.sized.perSlab, h.sized.full, h.sized.left⟩,
    fun b t ht => (h.update hp (hok.giveBack hk) ht).1,
    fun b t ht => (h.update hp (hok.giveBack hk) ht).2, h.nodup.erase _, fun p => ?_,
    fun p hp' => ?_⟩
  · rw [h.nodup.mem_erase_iff, h.live_iff]
    refine ⟨?_, ?_⟩
    · intro hm
      obtain ⟨hne, b, j, hub, rfl⟩ := hm
      refine ⟨b, j, hu.mpr ⟨hub, ?_⟩, rfl⟩
      rintro ⟨rfl, rfl⟩
      exact hne rfl
    · intro hm
      obtain ⟨b, j, hub, rfl⟩ := hm
      obtain ⟨hub, hne⟩ := hu.mp hub
      refine ⟨fun he => hne ?_, b, j, hub, rfl⟩
      obtain ⟨hpb, hj⟩ := hub.lt h
      exact slot_inj h.sized hpb hp hj hkn he
  · exact h.redZone p (List.mem_of_mem_erase hp')

/-- A slab as `__slab_create` makes it. -/
def emptySlab (cache : SlabCache) : SlabT :=
  ⟨slabMagic, List.replicate ((cache.objPerSlab + 64 - 1) / 64) 0, 0⟩

theorem emptySlab_ok (cache : SlabCache) : SlabOk cache.objPerSlab (emptySlab cache) where
  magic := rfl
  length := List.length_replicate
  count := by rw [emptySlab, ones_replicate]; rfl
  below := fun k hk => by
    rw [emptySlab, bitAt_replicate] at hk
    exact Bool.noConfusion hk

/-- No bit of a new slab is set. -/
theorem used_create (hn : cache.slabs a = none) {b : Addr} {j : Nat} :
    Used (cache.setSlab a (emptySlab cache)) b j ↔ Used cache b j := by
  rw [used_setSlab]
  split
  next hb =>
    subst hb
    rw [emptySlab, bitAt_replicate]
    refine ⟨fun hf => Bool.noConfusion hf, fun hu => ?_⟩
    obtain ⟨t, ht, _⟩ := hu
    rw [hn] at ht
    exact absurd ht.symm (Option.some_ne_none t)
  next hb => exact Iff.rfl

/-- Making a slab and taking a slot of it. -/
theorem taken_create (cache : SlabCache) (a : Addr) (k : Nat) :
    taken (cache.setSlab a (emptySlab cache)) a (emptySlab cache) k =
      taken cache a (emptySlab cache) k := by
  unfold taken SlabCache.setSlab
  rw [Function.update_idem]
  rfl

/-- **A new slab** has no live objects. -/
theorem Objects.create (h : Objects cache live) (hp : IsPage a) (hn : cache.slabs a = none) :
    Objects (cache.setSlab a (emptySlab cache)) live := by
  refine ⟨⟨h.sized.fits, h.sized.align, h.sized.perSlab, h.sized.full, h.sized.left⟩,
    fun b t ht => (h.update hp (emptySlab_ok cache) ht).1,
    fun b t ht => (h.update hp (emptySlab_ok cache) ht).2, h.nodup, fun p => ?_, h.redZone⟩
  rw [h.live_iff]
  exact exists_congr (fun b => exists_congr (fun j => and_congr_left (fun _ => (used_create hn).symm)))

/-! ### The lists -/

/-- **One slab is replaced**, and is in list `j` afterwards; the others stay where they
are. -/
theorem Placed.update {cache' : SlabCache} {L' : ListId → List Addr} {j : ListId} {s' : SlabT}
    (h : Placed cache L) (hl : Linked cache'.links L')
    (hs : cache'.slabs = Function.update cache.slabs a (some s'))
    (hn : cache'.objPerSlab = cache.objPerSlab) (hj : j ∈ inCache) (hf : Fits cache.objPerSlab s' j.2)
    (hm : ∀ i ∈ inCache, ∀ b, b ∈ L' i ↔ if b = a then i = j else b ∈ L i) : Placed cache' L' := by
  refine ⟨hl, fun i hi b hb => ?_, fun b t ht => ?_⟩
  · rw [hm i hi b] at hb
    rw [hs, hn]
    by_cases hba : b = a
    · subst hba
      rw [if_pos rfl] at hb
      subst hb
      exact ⟨s', Function.update_self .., hf⟩
    · rw [if_neg hba] at hb
      obtain ⟨t, ht, hft⟩ := h.slab_of_mem i hi b hb
      exact ⟨t, by rw [Function.update_of_ne hba, ht], hft⟩
  · by_cases hba : b = a
    · exact ⟨j, hj, (hm j hj b).mpr (by rw [if_pos hba])⟩
    · rw [hs, Function.update_of_ne hba] at ht
      obtain ⟨i, hi, hb⟩ := h.mem_of_slab b t ht
      exact ⟨i, hi, (hm i hi b).mpr (by rwa [if_neg hba])⟩

/-- Nothing moves. -/
theorem Placed.mem_same {i : ListId} (h : Placed cache L) (hi : i ∈ inCache) (ha : a ∈ L i) :
    ∀ k ∈ inCache, ∀ b, b ∈ L k ↔ if b = a then k = i else b ∈ L k := by
  intro k hk b
  split
  next hb =>
    subst hb
    exact ⟨fun hb => h.linked.eq_of_mem hk hi hb ha, fun he => he ▸ ha⟩
  next => exact Iff.rfl

/-- A slab moves. -/
theorem Placed.mem_moved {i j : ListId} (h : Placed cache L) (hi : i ∈ inCache) (ha : a ∈ L i) :
    ∀ k ∈ inCache, ∀ b, b ∈ move L i j a k ↔ if b = a then k = j else b ∈ L k :=
  fun _ hk _ => mem_move (h.linked.nodup hi) (fun _ hk hak => h.linked.eq_of_mem hk hi hak ha) hk

/-- A slab comes in. -/
theorem Placed.mem_pushed {j : ListId} (ha : ∀ k ∈ inCache, a ∉ L k) :
    ∀ k ∈ inCache, ∀ b, b ∈ Function.update L j (L j ++ [a]) k ↔ if b = a then k = j else b ∈ L k := by
  intro k hk b
  by_cases hkj : k = j
  · subst hkj
    rw [Function.update_self, List.mem_append, List.mem_singleton]
    split
    next hb => exact ⟨fun _ => rfl, fun _ => Or.inr hb⟩
    next hb => exact or_iff_left hb
  · rw [Function.update_of_ne hkj]
    split
    next hb =>
      subst hb
      exact ⟨fun hm => absurd hm (ha k hk), fun he => absurd he hkj⟩
    next => exact Iff.rfl

end DataStructures.Slab
