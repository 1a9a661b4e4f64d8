import DataStructures.Allocator.Buddy.Model
import DataStructures.Lib.Bitmap

/-!
# `allocator/slab.c`

The slab allocator as it computes, in the configuration of the header: debugging
and red zones are on.  Pointers are 64-bit words, bitmaps are lists of 64-bit words,
and `PAGE_SIZE` and `ALIGN` are those of the buddy allocator.

The state is the `slab_cache_t` together with what it reaches: the pages that hold a
slab, the list nodes, and the bytes of the memory.  A slab is linked through its
`node` field, and the three heads of every CPU lie in the cache.  A page that has been
given back has no slab any more, but its list node keeps what was written there.

A call ends with a result, or it stops (`Stop`): at an assertion that fails, in which
case the state it has left is kept, or by doing something that is not defined, such as
reading the header of a slab that is not there.  The cache is never NULL, and the
printing functions are left out.
-/

namespace DataStructures.Slab

open Lib Kdlist
open Buddy (Addr align pageSize)

/-! ### Sizes -/

/-- `SLAB_MAGIC`. -/
def slabMagic : BitVec 64 := 0xDEADBEEFCAFEBABE

/-- `RED_ZONE_MAGIC`. -/
def redZoneMagic : BitVec 64 := 0xDEDEDEDEDEDEDEDE

/-- `MAX_CPUS`. -/
def maxCpus : Nat := 16

/-- `SLAB_OBJ_ALIGNMENT`. -/
def slabObjAlignment : Nat := 64

/-- `RED_ZONE_SIZE`. -/
def redZoneSize : Nat := 8

/-- `SLAB_BLK_SIZE`. -/
def slabBlkSize : Nat := pageSize

/-- `SLAB_METADATA_SIZE`: magic, bitmap, count and a node of two pointers. -/
def slabMetadataSize : Nat := 8 + 8 + 8 + 16

/-- `ALIGN`, of sizes. -/
def alignSize (x a : Nat) : Nat := (align (BitVec.ofNat 64 x) (BitVec.ofNat 64 a)).toNat

/-- `SLAB_MEM_OFFSET`. -/
def slabMemOffset : Nat := alignSize slabMetadataSize slabObjAlignment

/-- `SLAB_PAD_SIZE`. -/
def slabPadSize : Nat := slabMemOffset - slabMetadataSize

/-- `sizeof(slab_t)`. -/
def sizeofSlab : Nat := slabMetadataSize + slabPadSize

/-- `SLAB_MEM_SIZE`. -/
def slabMemSize : Nat := slabBlkSize - sizeofSlab

/-- `SLAB_OBJ_MAX_SIZE`. -/
def slabObjMaxSize : Nat := slabMemSize

/-- `SLAB_OBJ_MIN_SIZE`. -/
def slabObjMinSize : Nat := 4

/-- `SLAB_OBJ_MAX_NAME`. -/
def slabObjMaxName : Nat := 64

/-! ### The state -/

/-- The three lists of a CPU. -/
inductive SlabList
  | fullSlabs
  | partialSlabs
  | freeSlabs
deriving DecidableEq, Repr

/-- A list node: a head in the `_cpu` array, or the `node` of the slab at an address. -/
inductive Node
  | head (cpu : Nat) (list : SlabList)
  | slab (addr : Addr)
deriving DecidableEq, Repr

/-- `slab_t`, its list node and its objects apart. -/
structure SlabT where
  magic : BitVec 64
  bitmap : List (BitVec 64)
  count : Nat
deriving DecidableEq, Repr

/-- `slab_cache_t`, with the list nodes, the slabs and the bytes of the memory. -/
structure SlabCache where
  fullBytes : Nat
  leftBits : Nat
  objSize : Nat
  objPerSlab : Nat
  objSizeAlign : Nat
  objName : List (BitVec 8)
  links : Store Node
  slabs : Addr → Option SlabT
  bytes : Addr → BitVec 8

/-- Why a call does not return. -/
inductive Stop
  /-- An assertion has failed, with the cache in this state. -/
  | assertion (cache : SlabCache)
  /-- The call has done something that is not defined. -/
  | undefined
  /-- A loop has not ended within the rounds it was given. -/
  | unfinished

/-- `assert`. -/
def assert (cache : SlabCache) (p : Prop) [Decidable p] : Except Stop Unit :=
  if p then .ok () else .error (.assertion cache)

namespace SlabCache

/-- Reading the header of a slab. -/
def load (cache : SlabCache) (slab : Addr) : Except Stop SlabT :=
  match cache.slabs slab with
  | none => .error .undefined
  | some s => .ok s

/-- Writing the header of a slab. -/
def setSlab (cache : SlabCache) (slab : Addr) (s : SlabT) : SlabCache :=
  { cache with slabs := Function.update cache.slabs slab (some s) }

/-- `kdlist_push_tail`, of a slab. -/
def pushTail (cache : SlabCache) (head : Node) (slab : Addr) : SlabCache :=
  { cache with links := kdlistPushTail cache.links head (.slab slab) }

/-- `kdlist_delete`, of a slab. -/
def delete (cache : SlabCache) (slab : Addr) : SlabCache :=
  { cache with links := kdlistDelete cache.links (.slab slab) }

end SlabCache

/-- `kdlist_entry`: there is no slab around a list head. -/
def kdlistEntry : Node → Except Stop Addr
  | .head _ _ => .error .undefined
  | .slab slab => .ok slab

/-- Writing a 64-bit word, its lowest byte first. -/
def writeU64 (bytes : Addr → BitVec 8) (a : Addr) (v : BitVec 64) : Addr → BitVec 8 :=
  fun x => if (x - a).toNat < 8 then (v >>> (8 * (x - a).toNat)).setWidth 8 else bytes x

/-- Reading a 64-bit word. -/
def readU64 (bytes : Addr → BitVec 8) (a : Addr) : BitVec 64 :=
  bytes (a + 7) ++ bytes (a + 6) ++ bytes (a + 5) ++ bytes (a + 4) ++ bytes (a + 3) ++
    bytes (a + 2) ++ bytes (a + 1) ++ bytes a

/-! ### Addresses -/

/-- `slab->mem`. -/
def slabMem (slab : Addr) : Addr := slab + BitVec.ofNat 64 slabMemOffset

/-- `__addr_2_slab`. -/
def addr2Slab (ptr : Addr) : Addr := ptr &&& ~~~(BitVec.ofNat 64 slabBlkSize - 1)

/-- `__slab_is_addr_in_range`. -/
def slabIsAddrInRange (slab ptr : Addr) : Bool :=
  slabMem slab ≤ ptr && ptr < slabMem slab + BitVec.ofNat 64 slabMemSize

/-- `__slab_is_addr_aligned`. -/
def slabIsAddrAligned (slab ptr : Addr) (size : Nat) : Bool :=
  ptr.toNat % slabObjAlignment == 0 && (ptr - slabMem slab).toNat % size == 0

/-- `__slab_obj_addr`. -/
def slabObjAddr (slab : Addr) (bitmapIdx bitIdx objSizeAlign : Nat) : Addr :=
  slabMem slab + BitVec.ofNat 64 ((bitmapIdx * 64 + bitIdx) * objSizeAlign)

/-! ### Slabs -/

/-- `__slab_is_free`. -/
def slabIsFree (s : SlabT) : Bool := s.count == 0

/-- `__slab_is_full`. -/
def slabIsFull (s : SlabT) (objPerSlab : Nat) : Bool := s.count == objPerSlab

/-- `__slab_is_partial`. -/
def slabIsPartial (s : SlabT) (objPerSlab : Nat) : Bool :=
  !slabIsFree s && !slabIsFull s objPerSlab

/-- What the system answers: the page `posix_memalign` hands out, and whether
`calloc` succeeds. -/
structure Env where
  page : Option Addr
  calloc : Bool

/-- `__slab_create`: the slab, or NULL. -/
def slabCreate (cache : SlabCache) (env : Env) (bitmapSize : Nat) :
    Except Stop (Option Addr × SlabCache) :=
  match env.page with
  | none => return (none, cache)
  | some slab => do
      assert cache ((slabMem slab).toNat % slabMemOffset = 0)
      if !env.calloc then return (none, cache) -- the page is given back
      return (some slab, cache.setSlab slab ⟨slabMagic, List.replicate bitmapSize 0, 0⟩)

/-- `__slab_destroy`. -/
def slabDestroy (cache : SlabCache) (slab : Addr) : Except Stop SlabCache := do
  let _ ← cache.load slab
  return { cache with slabs := Function.update cache.slabs slab none }

/-- `slab->bitmap[i]`. -/
def wordAt (bitmap : List (BitVec 64)) (i : Nat) : Except Stop (BitVec 64) :=
  match bitmap[i]? with
  | none => .error .undefined
  | some w => .ok w

/-- `__builtin_ctzll`, which is not defined for 0. -/
def builtinCtzll (x : BitVec 64) : Except Stop Nat :=
  if x = 0 then .error .undefined else .ok x.ctz.toNat

/-- The loop of `__slab_alloc` over the `n` complete words from word `i` on: the word
and the bit it has found. -/
def slabAllocFull (bitmap : List (BitVec 64)) : Nat → Nat → Except Stop (Option (Nat × Nat))
  | 0, _ => .ok none
  | n + 1, i => do
      let w ← wordAt bitmap i
      if w = 0xFF then slabAllocFull bitmap n (i + 1)
      else
        let bit ← builtinCtzll (~~~w)
        return some (i, bit)

/-- The search of `__slab_alloc` in the remaining bits, those of word `i`. -/
def slabAllocLeft (cache : SlabCache) (bitmap : List (BitVec 64)) (i bits : Nat) :
    Except Stop (Nat × Nat) := do
  assert cache (bits ≠ 0)
  let w ← wordAt bitmap i
  let masked := (1#64 <<< bits) - 1
  let mask := w &&& masked
  assert cache (mask ≠ masked)
  let bit ← builtinCtzll (~~~mask)
  return (i, bit)

/-- The word and the bit `__slab_alloc` takes. -/
def slabAllocBit (cache : SlabCache) (bitmap : List (BitVec 64)) (full bits : Nat) :
    Except Stop (Nat × Nat) := do
  match ← slabAllocFull bitmap full 0 with
  | some r => return r
  | none => slabAllocLeft cache bitmap full bits

/-- `__slab_alloc`. -/
def slabAlloc (cache : SlabCache) (slab : Addr) (objSize objSizeAlign full bits : Nat) :
    Except Stop (Addr × SlabCache) := do
  let s ← cache.load slab
  assert cache (slabIsFree s || slabIsPartial s (full * 64 + bits))
  let (i, bit) ← slabAllocBit cache s.bitmap full bits
  let w ← wordAt s.bitmap i
  let cache := cache.setSlab slab
    { s with bitmap := s.bitmap.set i (w ||| (1#64 <<< bit)), count := s.count + 1 }
  let ptr := slabObjAddr slab i bit objSizeAlign
  assert cache (ptr.toNat % slabObjAlignment = 0)
  let redZone := ptr + BitVec.ofNat 64 objSize
  return (ptr, { cache with bytes := writeU64 cache.bytes redZone redZoneMagic })

/-- `__slab_free`. -/
def slabFree (cache : SlabCache) (slab ptr : Addr) (objSize objSizeAlign : Nat) :
    Except Stop SlabCache := do
  let s ← cache.load slab
  assert cache (slabIsAddrAligned slab ptr objSizeAlign)
  let objIdx := (ptr - slabMem slab).toNat / objSizeAlign
  let bitmapIdx := objIdx / 64
  let bitIdx := objIdx % 64
  let w ← wordAt s.bitmap bitmapIdx
  let masked := 1#64 <<< bitIdx
  assert cache (w &&& masked != 0)
  let redZone := ptr + BitVec.ofNat 64 objSize
  assert cache (readU64 cache.bytes redZone = redZoneMagic)
  return cache.setSlab slab
    { s with bitmap := s.bitmap.set bitmapIdx (w &&& ~~~masked), count := s.count - 1 }

/-! ### The public functions -/

/-- The loop of `slab_cache_create` over the CPUs below `n`. -/
def initHeads (links : Store Node) (n : Nat) : Store Node :=
  (List.range n).foldl (fun m i =>
    let m := kdlistHeadInit m (.head i .fullSlabs)
    let m := kdlistHeadInit m (.head i .partialSlabs)
    kdlistHeadInit m (.head i .freeSlabs)) links

/-- `slab_cache_create`, in a memory without slabs; `malloc` says whether its
allocation succeeds. -/
def slabCacheCreate (objSize : Nat) (objName : Option (List (BitVec 8))) (malloc : Bool)
    (links : Store Node) (bytes : Addr → BitVec 8) : Option SlabCache :=
  if slabObjMaxSize < objSize ∨ objSize < slabObjMinSize then none
  else
    match objName with
    | none => none
    | some name =>
        if slabObjMaxName ≤ name.length then none
        else if !malloc then none
        else
          let objSizeAlign := alignSize (objSize + redZoneSize) slabObjAlignment
          let objPerSlab := slabMemSize / objSizeAlign
          some {
            fullBytes := objPerSlab / 64 % 256
            leftBits := objPerSlab % 64
            objSize := objSize
            objPerSlab := objPerSlab
            objSizeAlign := objSizeAlign
            objName := name
            links := initHeads links maxCpus
            slabs := fun _ => none
            bytes := bytes }

/-- `kdlist_for_each_safe` around `__slab_destroy`, from `pos` on, with the next
position already read. -/
def destroyEach (head : Node) : Nat → SlabCache → Node → Node → Except Stop SlabCache
  | 0, _, _, _ => .error .unfinished
  | fuel + 1, cache, pos, n =>
      if pos = head then .ok cache
      else do
        let slab ← kdlistEntry pos
        let cache ← slabDestroy cache slab
        destroyEach head fuel cache n (cache.links n).next

/-- `kdlist_for_each_safe` around `__slab_destroy`. -/
def destroyList (fuel : Nat) (cache : SlabCache) (head : Node) : Except Stop SlabCache :=
  let pos := (cache.links head).next
  destroyEach head fuel cache pos (cache.links pos).next

/-- `slab_cache_destroy`: what is left when the cache itself is freed. -/
def slabCacheDestroy (fuel : Nat) (cache : SlabCache) : Except Stop SlabCache :=
  (List.range maxCpus).foldlM (fun cache i => do
    let cache ← destroyList fuel cache (.head i .fullSlabs)
    let cache ← destroyList fuel cache (.head i .partialSlabs)
    destroyList fuel cache (.head i .freeSlabs)) cache

/-- `slab_cache_shrink`. -/
def slabCacheShrink (fuel : Nat) (cache : SlabCache) (cpuId : Int) : Except Stop SlabCache :=
  if 0 ≤ cpuId ∧ cpuId < maxCpus then destroyList fuel cache (.head cpuId.toNat .freeSlabs)
  else .error .undefined -- outside the `_cpu` array

/-- The list for a slab that has just given an object. -/
def listAfterAlloc (s : SlabT) (objPerSlab : Nat) : SlabList :=
  if slabIsFull s objPerSlab then .fullSlabs else .partialSlabs

/-- `slab_cache_alloc`, from `new_slab` on. -/
def newSlab (cache : SlabCache) (cpu : Nat) (env : Env) : Except Stop (Addr × SlabCache) := do
  let bitmapSize := (cache.objPerSlab + 64 - 1) / 64
  match ← slabCreate cache env bitmapSize with
  | (none, cache) => return (0, cache)
  | (some slab, cache) =>
      let (obj, cache) ←
        slabAlloc cache slab cache.objSize cache.objSizeAlign cache.fullBytes cache.leftBits
      if obj = 0 then return (obj, cache)
      let s ← cache.load slab
      return (obj, cache.pushTail (.head cpu (listAfterAlloc s cache.objPerSlab)) slab)

/-- `slab_cache_alloc`, from `free_slabs_lookup` on. -/
def freeSlabsLookup (cache : SlabCache) (cpu : Nat) (env : Env) :
    Except Stop (Addr × SlabCache) := do
  let freeSlabs := Node.head cpu .freeSlabs
  let it := (cache.links freeSlabs).next
  if it = freeSlabs then newSlab cache cpu env
  else
    let slab ← kdlistEntry it
    let (obj, cache) ←
      slabAlloc cache slab cache.objSize cache.objSizeAlign cache.fullBytes cache.leftBits
    if obj = 0 then newSlab cache cpu env
    else
      let cache := cache.delete slab
      let s ← cache.load slab
      return (obj, cache.pushTail (.head cpu (listAfterAlloc s cache.objPerSlab)) slab)

/-- `slab_cache_alloc`, from `partial_slabs_lookup` on. -/
def partialSlabsLookup (cache : SlabCache) (cpu : Nat) (env : Env) :
    Except Stop (Addr × SlabCache) := do
  let partialSlabs := Node.head cpu .partialSlabs
  let it := (cache.links partialSlabs).next
  if it = partialSlabs then freeSlabsLookup cache cpu env
  else
    let slab ← kdlistEntry it
    let (obj, cache) ←
      slabAlloc cache slab cache.objSize cache.objSizeAlign cache.fullBytes cache.leftBits
    if obj = 0 then freeSlabsLookup cache cpu env
    else
      let s ← cache.load slab
      if slabIsFull s cache.objPerSlab then
        return (obj, (cache.delete slab).pushTail (.head cpu .fullSlabs) slab)
      else return (obj, cache)

/-- `slab_cache_alloc`: the object, or 0 for NULL. -/
def slabCacheAlloc (cache : SlabCache) (cpuId : Int) (env : Env) :
    Except Stop (Addr × SlabCache) := do
  assert cache (0 ≤ cpuId ∧ cpuId < maxCpus)
  partialSlabsLookup cache cpuId.toNat env

/-- `slab_cache_free`. -/
def slabCacheFree (cache : SlabCache) (ptr : Addr) (cpuId : Int) : Except Stop SlabCache :=
  if ptr = 0 then .ok cache
  else if ¬ (0 ≤ cpuId ∧ cpuId < maxCpus) then .error .undefined -- outside the `_cpu` array
  else do
    let freeSlabs := Node.head cpuId.toNat .freeSlabs
    let partialSlabs := Node.head cpuId.toNat .partialSlabs
    let slab := addr2Slab ptr
    let s ← cache.load slab
    assert cache (s.magic = slabMagic)
    assert cache (slabIsAddrInRange slab ptr)
    let fullSlab := slabIsFull s cache.objPerSlab
    let cache ← slabFree cache slab ptr cache.objSize cache.objSizeAlign
    let s ← cache.load slab
    if fullSlab then
      let cache := cache.delete slab
      if slabIsFree s then return cache.pushTail freeSlabs slab
      else return cache.pushTail partialSlabs slab
    else if slabIsFree s then return (cache.delete slab).pushTail freeSlabs slab
    else return cache

end DataStructures.Slab
