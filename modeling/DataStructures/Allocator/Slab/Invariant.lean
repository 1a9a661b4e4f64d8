import DataStructures.Allocator.Slab.Geometry

/-!
# What the state of a slab cache represents

`Linked m L` reads the 48 rings of a store as 48 lists of slabs.  `SlabOk` says that
a slab's counter and bitmap agree, and `Fits` that it is in the list for its counter.
`Placed cache L`: every slab is in exactly one list.  `Objects cache live`: the live
objects are the slots whose bits are set, with intact red zones.  `Inv` is both.

`slabAlloc_spec` and `slabFree_spec` are what `__slab_alloc` and `__slab_free` do to a
slab: they take the lowest free slot, and give a used one back.
-/

namespace DataStructures.Slab

open Lib Kdlist
open Buddy (Addr)

/-! ### Linked slabs -/

/-- One list of one CPU. -/
abbrev ListId := Nat × SlabList

/-- The head of a list. -/
def headOf (i : ListId) : Node := .head i.1 i.2

/-- The lists of the cache. -/
def inCache : Set ListId := {i | i.1 < maxCpus}

/-- The rings of the store, as lists of slabs. -/
def Linked (m : Store Node) (L : ListId → List Addr) : Prop :=
  Rings m inCache headOf (fun i => (L i).map .slab)

namespace Linked

variable {m : Store Node} {L : ListId → List Addr} {i : ListId} {a : Addr}

theorem map_update (L : ListId → List Addr) (i : ListId) (xs : List Addr) :
    (fun j => (Function.update L i xs j).map Node.slab) =
      Function.update (fun j => (L j).map Node.slab) i (xs.map Node.slab) := by
  funext j
  exact Function.apply_update (fun _ => List.map Node.slab) L i xs j

theorem nodup (h : Linked m L) (hi : i ∈ inCache) : (L i).Nodup :=
  List.Nodup.of_map _ (List.nodup_cons.mp (h.ring i hi).nodup).2

/-- No slab is in two lists. -/
theorem eq_of_mem (h : Linked m L) {j : ListId} (hi : i ∈ inCache) (hj : j ∈ inCache) (hai : a ∈ L i)
    (haj : a ∈ L j) : i = j := by
  by_contra hij
  exact h.disjoint i hi j hj hij (List.mem_cons_of_mem _ (List.mem_map_of_mem hai))
    (List.mem_cons_of_mem _ (List.mem_map_of_mem haj))

theorem next_nil (h : Linked m L) (hi : i ∈ inCache) (hL : L i = []) :
    (m (headOf i)).next = headOf i := by
  rw [(h.ring i hi).next_eq_head_iff, hL, List.map_nil]

theorem next_cons (h : Linked m L) (hi : i ∈ inCache) {r : List Addr} (hL : L i = a :: r) :
    (m (headOf i)).next = .slab a := by
  have hr := h.ring i hi
  rw [hL, List.map_cons] at hr
  exact (hr.link_of_split (P := []) (Q := r.map .slab ++ [headOf i]) (by simp)).1

/-- **Pushing a slab that is in no list.** -/
theorem push (h : Linked m L) (hi : i ∈ inCache) (ha : ∀ j ∈ inCache, a ∉ L j) :
    Linked (kdlistPushTail m (headOf i) (.slab a)) (Function.update L i (L i ++ [a])) := by
  unfold Linked
  rw [map_update, List.map_append, List.map_singleton]
  refine kdlistPushTail_rings h hi (fun j hj hmem => ?_)
  rcases List.mem_cons.mp hmem with he | hmem
  · exact Node.noConfusion he
  · obtain ⟨b, hb, he⟩ := List.mem_map.mp hmem
    rw [Node.slab.injEq] at he
    exact ha j hj (he ▸ hb)

/-- **Deleting a slab** from the list it is in. -/
theorem delete (h : Linked m L) (hi : i ∈ inCache) {l r : List Addr} (hL : L i = l ++ a :: r) :
    Linked (kdlistDelete m (.slab a)) (Function.update L i (l ++ r)) := by
  unfold Linked
  rw [map_update, List.map_append]
  exact kdlistDelete_rings h hi (by rw [hL, List.map_append, List.map_cons])

end Linked

/-- The lists after slab `a` has gone from list `i` to the end of list `j`. -/
def move (L : ListId → List Addr) (i j : ListId) (a : Addr) : ListId → List Addr :=
  let L' := Function.update L i ((L i).erase a)
  Function.update L' j (L' j ++ [a])

/-- Moving a slab changes the place of no other one. -/
theorem mem_move {L : ListId → List Addr} {i j k : ListId} {a b : Addr} (hn : (L i).Nodup)
    (hother : ∀ k ∈ inCache, a ∈ L k → k = i) (hk : k ∈ inCache) :
    b ∈ move L i j a k ↔ if b = a then k = j else b ∈ L k := by
  have herase : ∀ k ∈ inCache, b ∈ Function.update L i ((L i).erase a) k ↔ b ≠ a ∧ b ∈ L k := by
    intro k hk
    by_cases hki : k = i
    · subst hki
      rw [Function.update_self, hn.mem_erase_iff]
    · rw [Function.update_of_ne hki]
      refine ⟨fun hb => ⟨?_, hb⟩, fun hb => hb.2⟩
      rintro rfl
      exact hki (hother k hk hb)
  unfold move
  by_cases hkj : k = j
  · subst hkj
    rw [Function.update_self, List.mem_append, List.mem_singleton, herase k hk]
    split
    next h => exact ⟨fun _ => rfl, fun _ => Or.inr h⟩
    next h => exact ⟨fun hb => (hb.resolve_right h).2, fun hb => Or.inl ⟨h, hb⟩⟩
  · rw [Function.update_of_ne hkj, herase k hk]
    split
    next h => exact ⟨fun hb => absurd h hb.1, fun hb => absurd hb hkj⟩
    next h => exact ⟨fun hb => hb.2, fun hb => ⟨h, hb⟩⟩

/-- **A deletion and a push** move a slab to the end of another list, or of its own. -/
theorem Linked.move {m : Store Node} {L : ListId → List Addr} {i j : ListId} {a : Addr}
    (h : Linked m L) (hi : i ∈ inCache) (hj : j ∈ inCache) (ha : a ∈ L i) :
    Linked (kdlistPushTail (kdlistDelete m (.slab a)) (headOf j) (.slab a)) (Slab.move L i j a) := by
  obtain ⟨l, r, hL⟩ := List.append_of_mem ha
  have hn := h.nodup hi
  have he : (L i).erase a = l ++ r := by
    rw [hL] at hn ⊢
    have hal : a ∉ l := fun hm => (List.nodup_cons.mp (List.nodup_middle.mp hn)).1
      (List.mem_append_left r hm)
    rw [List.erase_append_right _ hal, List.erase_cons_head]
  have hd := h.delete hi hL
  rw [← he] at hd
  refine hd.push hj (fun k hk hm => ?_)
  by_cases hki : k = i
  · subst hki
    rw [Function.update_self, hn.mem_erase_iff] at hm
    exact hm.1 rfl
  · rw [Function.update_of_ne hki] at hm
    exact hki (h.eq_of_mem hk hi hm ha)

/-! ### The invariant -/

/-- The counter and the bitmap of a slab agree. -/
structure SlabOk (objPerSlab : Nat) (s : SlabT) : Prop where
  magic : s.magic = slabMagic
  length : s.bitmap.length = (objPerSlab + 64 - 1) / 64
  count : s.count = (ones s.bitmap).length
  below : ∀ k, bitAt s.bitmap k = true → k < objPerSlab

/-- The slab is in the list for its counter. -/
def Fits (objPerSlab : Nat) (s : SlabT) : SlabList → Prop
  | .fullSlabs => s.count = objPerSlab
  | .partialSlabs => s.count ≠ 0 ∧ s.count ≠ objPerSlab
  | .freeSlabs => s.count = 0

/-- One more object. -/
def SlabT.take (s : SlabT) (k : Nat) : SlabT := ⟨s.magic, setBit s.bitmap k, s.count + 1⟩

/-- One object less. -/
def SlabT.giveBack (s : SlabT) (k : Nat) : SlabT := ⟨s.magic, clearBit s.bitmap k, s.count - 1⟩

@[simp] theorem SlabT.take_count (s : SlabT) (k : Nat) : (s.take k).count = s.count + 1 := rfl
@[simp] theorem SlabT.giveBack_count (s : SlabT) (k : Nat) :
    (s.giveBack k).count = s.count - 1 := rfl

/-- Bit `k` of the slab at `a` is set. -/
def Used (cache : SlabCache) (a : Addr) (k : Nat) : Prop :=
  ∃ s, cache.slabs a = some s ∧ bitAt s.bitmap k = true

/-- Every slab is in exactly one list, the one for its counter. -/
structure Placed (cache : SlabCache) (L : ListId → List Addr) : Prop where
  linked : Linked cache.links L
  slab_of_mem : ∀ i ∈ inCache, ∀ a ∈ L i, ∃ s, cache.slabs a = some s ∧ Fits cache.objPerSlab s i.2
  mem_of_slab : ∀ a s, cache.slabs a = some s → ∃ i ∈ inCache, a ∈ L i

/-- The slabs are well formed, and the live objects are their used slots. -/
structure Objects (cache : SlabCache) (live : List Addr) : Prop where
  sized : Sized cache
  page : ∀ a s, cache.slabs a = some s → IsPage a
  slabOk : ∀ a s, cache.slabs a = some s → SlabOk cache.objPerSlab s
  nodup : live.Nodup
  live_iff : ∀ p, p ∈ live ↔ ∃ a k, Used cache a k ∧ p = slot cache a k
  redZone : ∀ p ∈ live, readU64 cache.bytes (p + BitVec.ofNat 64 cache.objSize) = redZoneMagic

/-- **The invariant of a slab cache.** -/
structure Inv (cache : SlabCache) (L : ListId → List Addr) (live : List Addr) : Prop where
  placed : Placed cache L
  objects : Objects cache live

namespace SlabOk

variable {n : Nat} {s : SlabT}

theorem count_le (h : SlabOk n s) : s.count ≤ n := by
  have hsub : ones s.bitmap ⊆ List.range n := fun k hk =>
    List.mem_range.mpr (h.below k (mem_ones.mp hk))
  have hle := ((nodup_ones s.bitmap).subperm hsub).length_le
  rw [List.length_range] at hle
  rw [h.count]
  exact hle

theorem count_pos {k : Nat} (h : SlabOk n s) (hk : bitAt s.bitmap k = true) : 0 < s.count := by
  rw [h.count]
  exact List.length_pos_of_mem (mem_ones.mpr hk)

theorem lt_length {k : Nat} (h : SlabOk n s) (hk : k < n) :
    k < 64 * s.bitmap.length := by
  rw [h.length]
  omega

/-- One more bit. -/
theorem take {k : Nat} (h : SlabOk n s) (hk : k < n)
    (hc : bitAt s.bitmap k = false) :
    SlabOk n (s.take k) where
  magic := h.magic
  length := by rw [SlabT.take, length_setBit, h.length]
  count := by rw [SlabT.take, length_ones_setBit (h.lt_length hk) hc, h.count]
  below := fun j hj => by
    rw [SlabT.take, bitAt_setBit (h.lt_length hk), Bool.or_eq_true, decide_eq_true_eq] at hj
    rcases hj with hj | rfl
    · exact h.below j hj
    · exact hk

/-- One bit less. -/
theorem giveBack {k : Nat} (h : SlabOk n s) (hc : bitAt s.bitmap k = true) :
    SlabOk n (s.giveBack k) where
  magic := h.magic
  length := by rw [SlabT.giveBack, length_clearBit, h.length]
  count := by rw [SlabT.giveBack, h.count, ← length_ones_clearBit hc, Nat.add_sub_cancel]
  below := fun j hj => by
    rw [SlabT.giveBack, bitAt_clearBit (bitAt_lt hc), Bool.and_eq_true] at hj
    exact h.below j hj.1

end SlabOk

/-! ### What stops a call -/

section Calls

variable {cache : SlabCache} {a : Addr} {s : SlabT}

@[simp] theorem ok_bind {α β : Type} (x : α) (f : α → Except Stop β) : (Except.ok x >>= f) = f x := rfl

theorem assert_of {p : Prop} [Decidable p] (h : p) : assert cache p = .ok () := if_pos h

theorem assert_not {p : Prop} [Decidable p] (h : ¬ p) :
    assert cache p = .error (.assertion cache) := if_neg h

theorem load_of (h : cache.slabs a = some s) : cache.load a = .ok s := by
  rw [SlabCache.load, h]

theorem wordAt_of {bitmap : List (BitVec 64)} {i : Nat} {w : BitVec 64} (h : bitmap[i]? = some w) :
    wordAt bitmap i = .ok w := by
  rw [wordAt, h]

/-- **The search in the remaining bits** finds a clear one, if there is one. -/
theorem slabAllocLeft_spec {bitmap : List (BitVec 64)} {i bits k : Nat} (hb : bits < 64)
    (hi : i < bitmap.length) (hk : k < bits) (hc : bitAt bitmap (i * 64 + k) = false) :
    ∃ bit, slabAllocLeft cache bitmap i bits = .ok (i, bit) ∧ bit < bits ∧
      bitAt bitmap (i * 64 + bit) = false := by
  obtain ⟨w, hw⟩ : ∃ w, bitmap[i]? = some w := ⟨_, List.getElem?_eq_getElem hi⟩
  rw [bitAt_word hw (by omega)] at hc
  have hlow := getLsbD_low hb
  have hmask : ∀ j < bits, (w &&& ((1#64 <<< bits) - 1)).getLsbD j = w.getLsbD j := by
    intro j hj
    rw [BitVec.getLsbD_and, hlow, decide_eq_true hj, Bool.and_true]
  have hne : w &&& ((1#64 <<< bits) - 1) ≠ (1#64 <<< bits) - 1 := by
    intro he
    have := congrArg (BitVec.getLsbD · k) he
    rw [hmask k hk, hc, hlow, decide_eq_true hk] at this
    exact Bool.noConfusion this
  have hnot : ~~~(w &&& ((1#64 <<< bits) - 1)) ≠ 0 := by
    intro he
    have := congrArg (BitVec.getLsbD · k) he
    have hzero : (0 : BitVec 64).getLsbD k = false := BitVec.getLsbD_zero
    rw [BitVec.getLsbD_not, hmask k hk, hc, decide_eq_true (by omega), hzero] at this
    exact Bool.noConfusion this
  obtain ⟨_, hbit⟩ := ctz_not_spec hnot
  have hle := ctz_not_le (i := k) (by omega) ((hmask k hk).trans hc)
  rw [hmask _ (by omega)] at hbit
  refine ⟨_, ?_, Nat.lt_of_le_of_lt hle hk, ?_⟩
  · simp only [slabAllocLeft, assert_of (show bits ≠ 0 by omega), wordAt_of hw, ok_bind,
      assert_of hne, builtinCtzll, if_neg hnot]
    rfl
  · rw [bitAt_word hw (by omega)]
    exact hbit

/-- The cache after slot `k` of the slab `s` at `a` has been taken. -/
def taken (cache : SlabCache) (a : Addr) (s : SlabT) (k : Nat) : SlabCache :=
  { cache.setSlab a (s.take k) with
    bytes := writeU64 cache.bytes (slot cache a k + BitVec.ofNat 64 cache.objSize) redZoneMagic }

/-- The cache after slot `k` of the slab `s` at `a` has been given back. -/
def givenBack (cache : SlabCache) (a : Addr) (s : SlabT) (k : Nat) : SlabCache :=
  cache.setSlab a (s.giveBack k)

/-- The assertion at the start of `__slab_alloc`. -/
theorem isFree_or_isPartial {n : Nat} (h : s.count ≠ n) :
    (slabIsFree s || slabIsPartial s n) = true := by
  rw [slabIsPartial, slabIsFree, slabIsFull, beq_false_of_ne h, Bool.not_false, Bool.and_true,
    Bool.or_not_self]

/-- **`__slab_alloc` takes a free slot** of a slab that is not full, and no assertion
fails. -/
theorem slabAlloc_spec (h : Sized cache) (hs : cache.slabs a = some s) (hp : IsPage a)
    (hok : SlabOk cache.objPerSlab s) (hlt : s.count ≠ cache.objPerSlab) :
    ∃ k, k < cache.objPerSlab ∧ bitAt s.bitmap k = false ∧
      slabAlloc cache a cache.objSize cache.objSizeAlign cache.fullBytes cache.leftBits =
        .ok (slot cache a k, taken cache a s k) := by
  have hper := h.perSlab_bounds
  have hle := hok.count_le
  have hlen := hok.length
  have hfew : (ones s.bitmap).length < cache.objPerSlab := by
    rw [← hok.count]
    omega
  obtain ⟨k₀, hk₀, hc₀⟩ := exists_clear hfew
  have hc₀' : bitAt s.bitmap (0 * 64 + k₀) = false := by rwa [Nat.zero_mul, Nat.zero_add]
  obtain ⟨k, hr, hk, hc⟩ := @slabAllocLeft_spec cache _ _ _ _ hper.2 (by omega) hk₀ hc₀'
  rw [Nat.zero_mul, Nat.zero_add] at hc
  obtain ⟨w, hw⟩ : ∃ w, s.bitmap[0]? = some w := ⟨_, List.getElem?_eq_getElem (by omega)⟩
  refine ⟨k, hk, hc, ?_⟩
  have hbit : slabAllocBit cache s.bitmap cache.fullBytes cache.leftBits = .ok (0, k) := by
    rw [slabAllocBit, h.full_eq, h.left_eq, slabAllocFull, ok_bind]
    exact hr
  have hpart : (slabIsFree s || slabIsPartial s (cache.fullBytes * 64 + cache.leftBits)) = true := by
    rw [h.full_eq, h.left_eq, Nat.zero_mul, Nat.zero_add]
    exact isFree_or_isPartial hlt
  simp only [slabAlloc, load_of hs, ok_bind, assert_of hpart, hbit, wordAt_of hw]
  rw [slot_eq, Nat.zero_mul, Nat.zero_add, assert_of (slot_aligned h hp hk), ok_bind,
    set_or_eq hw (by omega), Nat.zero_mul, Nat.zero_add]
  rfl

/-- **`__slab_free` gives a used slot back**, and no assertion fails as long as its
red zone is intact. -/
theorem slabFree_spec (h : Sized cache) (hs : cache.slabs a = some s) (hp : IsPage a)
    (hok : SlabOk cache.objPerSlab s) {k : Nat} (hk : bitAt s.bitmap k = true)
    (hred : readU64 cache.bytes (slot cache a k + BitVec.ofNat 64 cache.objSize) = redZoneMagic) :
    slabFree cache a (slot cache a k) cache.objSize cache.objSizeAlign =
      .ok (givenBack cache a s k) := by
  have hkn := hok.below k hk
  have hlt := hok.lt_length hkn
  obtain ⟨w, hw⟩ : ∃ w, s.bitmap[k / 64]? = some w := ⟨_, List.getElem?_eq_getElem (by omega)⟩
  have htest : (w &&& (1#64 <<< (k % 64)) != 0) = true := by
    rw [mask_test _ (Nat.mod_lt k (by decide)), ← bitAt_word hw (Nat.mod_lt k (by decide)),
      Nat.div_add_mod' k 64]
    exact hk
  have hget : s.bitmap.getD (k / 64) 0 = w := by
    rw [List.getD_eq_getElem?_getD, hw, Option.getD_some]
  simp only [slabFree, load_of hs, ok_bind, assert_of (slot_isAddrAligned h hp hkn),
    slot_index h hkn, wordAt_of hw, assert_of htest, assert_of hred, givenBack, SlabT.giveBack,
    clearBit, hget]
  rfl

end Calls

end DataStructures.Slab
