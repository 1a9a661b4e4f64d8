import DataStructures.List.Kdlist
import Mathlib.Data.BitVec

/-!
# `allocator/buddy.c`

The buddy allocator as it computes.  Addresses are 64-bit words, `uint8_t`
results are cut to eight bits where the source cuts them, and the six free lists
are rings of nodes in a store: a free block is linked through its own first
bytes, so a list node *is* the address of a block.

The state is the `buddy_t` (where it lies, `mem`, `tree_mask`) together with the
store.  `free_list[i]` is the `i`-th head inside the struct.  The pointer `bud`
itself is not NULL here, so the `!bud` tests of the public functions have no
counterpart, and the debug printing is left out.

The store is total, and `1ULL << bit` is `0` here for `bit >= 64`.  Both differ from the source for blocks
behind the arena only, where a `1ULL << bit` can be undefined and the merge loop follows what other memory
holds; `buddy_free` is the one function that gets there, with the address `s_aligned + BUDDY_MEM`.

`__blk_alloc` restarts its search after every split.  `blkAlloc` counts those
rounds with `fuel` and is `none` when they do not suffice.
-/

namespace DataStructures.Buddy

open Lib Kdlist

/-- A pointer. -/
abbrev Addr := BitVec 64

/-! ### Sizes -/

/-- `PAGE_SIZE`. -/
def pageSize : Nat := 4096

/-- `BUDDY_ORDERS`. -/
def buddyOrders : Nat := 5

/-- `BUDDY_MEM`. -/
def buddyMem : Nat := 2 ^ buddyOrders * pageSize

/-- `BUDDY_XTRA`. -/
def buddyXtra : Nat := pageSize - 1

/-- `BUDDY_TOTAL_MEM`. -/
def buddyTotalMem : Nat := buddyMem + buddyXtra

/-- `ALIGN`, at the width of its argument. -/
def align {w : Nat} (x a : BitVec w) : BitVec w := (x + a - 1) &&& ~~~(a - 1)

/-- `PAGE_PTR_ALIGN`. -/
def pagePtrAlign (x : Addr) : Addr := align x (BitVec.ofNat 64 pageSize)

/-- `SIZE_2_PAGES`, in 32-bit arithmetic. -/
def size2Pages (x : BitVec 32) : BitVec 32 :=
  align x (BitVec.ofNat 32 pageSize) / BitVec.ofNat 32 pageSize

/-- `PAGES_2_ORDER`. -/
def pages2Order (x : BitVec 32) : Nat := if x = 1 then 0 else 32 - (x - 1).clz.toNat

/-- `SIZE_2_ORDER`. -/
def size2Order (x : BitVec 32) : Nat := pages2Order (size2Pages x)

/-- `ORDER_2_LEVEL`. -/
def order2Level (x : Nat) : Nat := buddyOrders - x

/-- `LEVEL_2_ORDER`. -/
def level2Order (x : Nat) : Nat := order2Level x

/-- `SIZE_OF_LEVEL`. -/
def sizeOfLevel (n : Nat) : Nat := buddyMem / 2 ^ n

/-! ### Blocks and the tree mask -/

/-- `__blk_2_buddy`. -/
def blk2Buddy (addr start : Addr) (order : Nat) : Addr :=
  ((addr - start) ^^^ ((1#64 <<< order) * BitVec.ofNat 64 pageSize)) + start

/-- `__blk_in_lvl_2_index`. -/
def blkInLvl2Index (blk start : Addr) (lvl : Nat) : Nat :=
  ((blk - start).toNat / sizeOfLevel lvl) % 256

/-- `__blk_in_lvl_2_bit`. -/
def blkInLvl2Bit (blk start : Addr) (lvl : Nat) : Nat :=
  (2 ^ lvl - 1 + blkInLvl2Index blk start lvl) % 256

/-- `__blk_in_lvl_aligned`. -/
def blkInLvlAligned (blk start : Addr) (lvl : Nat) : Bool :=
  let r := blk - start
  r == align r ((1#64 <<< level2Order lvl) * BitVec.ofNat 64 pageSize)

/-- `__blk_is_split`: is `bit`, or a bit below it in the tree, set? -/
def blkIsSplit (mask : BitVec 64) (bit lvl : Nat) : Bool :=
  if buddyOrders ≤ lvl then mask &&& (1#64 <<< bit) != 0
  else
    mask &&& (1#64 <<< bit) != 0 || blkIsSplit mask ((2 * bit + 1) % 256) (lvl + 1) ||
      blkIsSplit mask ((2 * bit + 2) % 256) (lvl + 1)
termination_by buddyOrders - lvl

/-- `__blk_is_allocated`. -/
def blkIsAllocated (mask : BitVec 64) (blk start : Addr) (lvl : Nat) : Bool :=
  mask &&& (1#64 <<< blkInLvl2Bit blk start lvl) != 0

/-- `__blk_set_allocated`. -/
def blkSetAllocated (mask : BitVec 64) (blk start : Addr) (lvl : Nat) : BitVec 64 :=
  mask ||| (1#64 <<< blkInLvl2Bit blk start lvl)

/-- `__blk_clr_allocated`. -/
def blkClrAllocated (mask : BitVec 64) (blk start : Addr) (lvl : Nat) : BitVec 64 :=
  mask &&& ~~~(1#64 <<< blkInLvl2Bit blk start lvl)

/-- `blk_status_e`. -/
inductive BlkStatus
  | free
  | split
  | allocated
deriving DecidableEq, Repr

/-- `__blk_get_status`. -/
def blkGetStatus (mask : BitVec 64) (blk start : Addr) (lvl : Nat) : BlkStatus :=
  if blkIsAllocated mask blk start lvl then .allocated
  else if blkIsSplit mask (blkInLvl2Bit blk start lvl) lvl then .split
  else .free

/-! ### The allocator -/

/-- `buddy_t`: its address, its fields, and the nodes its lists run through. -/
structure BuddyT where
  addr : Addr
  mem : Addr
  treeMask : BitVec 64
  heap : Store Addr

/-- `sizeof(buddy_t)`: a pointer, six heads of two pointers, and the mask. -/
def sizeofBuddy : Nat := 8 + 16 * (buddyOrders + 1) + 8

/-- `&bud->free_list[i]`. -/
def headAddr (addr : Addr) (i : Nat) : Addr := addr + BitVec.ofNat 64 (8 + 16 * i)

def BuddyT.freeList (bud : BuddyT) (i : Nat) : Addr := headAddr bud.addr i

/-- The aligned start of the arena. -/
def BuddyT.sAligned (bud : BuddyT) : Addr := pagePtrAlign bud.mem

/-- The `for` loop of `__blk_alloc` over the larger orders: split the first block
there is, and say whether there was one. -/
def blkAllocSplit (bud : BuddyT) : List Nat → Bool × BuddyT
  | [] => (false, bud)
  | i :: is =>
      if kdlistIsEmpty bud.heap (bud.freeList i) then blkAllocSplit bud is
      else
        match kdlistPopHead bud.heap (bud.freeList i) with
        | (none, _) => (false, bud) -- the list was just seen not to be empty
        | (some bud1, heap) =>
            let bud2 := blk2Buddy bud1 bud.sAligned (i - 1)
            let heap := kdlistPushTail heap (bud.freeList (i - 1)) bud1
            let heap := kdlistPushTail heap (bud.freeList (i - 1)) bud2
            (true, { bud with heap := heap })

/-- `__blk_alloc`: the returned block, or NULL. -/
def blkAlloc : Nat → BuddyT → Nat → Option (Option Addr × BuddyT)
  | 0, _, _ => none
  | fuel + 1, bud, order =>
      match kdlistPopHead bud.heap (bud.freeList order) with
      | (some rAddr, heap) =>
          let mask := blkSetAllocated bud.treeMask rAddr bud.sAligned (order2Level order)
          some (some rAddr, { bud with heap := heap, treeMask := mask })
      | (none, _) =>
          match blkAllocSplit bud (List.range' (order + 1) (buddyOrders - order)) with
          | (true, bud) => blkAlloc fuel bud order
          | (false, bud) => some (none, bud)

/-- The `while (lvl)` loop of `__blk_free`. -/
def blkMerge (bud : BuddyT) : Nat → Addr → BuddyT
  | 0, _ => bud
  | lvl + 1, bud1 =>
      let order := level2Order (lvl + 1)
      let bud2 := blk2Buddy bud1 bud.sAligned order
      match blkGetStatus bud.treeMask bud2 bud.sAligned (lvl + 1) with
      | .split => bud
      | .allocated => bud
      | .free =>
          let heap := kdlistDelete bud.heap bud1
          let heap := kdlistDelete heap bud2
          let merged := if bud1 < bud2 then bud1 else bud2
          let heap := kdlistPushTail heap (bud.freeList (order + 1)) merged
          blkMerge { bud with heap := heap } lvl merged

/-- `__blk_free`. -/
def blkFree (bud : BuddyT) (blk : Addr) (lvl : Nat) : Int × BuddyT :=
  let mask := blkClrAllocated bud.treeMask blk bud.sAligned lvl
  let heap := kdlistPushTail bud.heap (bud.freeList (level2Order lvl)) blk
  (0, blkMerge { bud with treeMask := mask, heap := heap } lvl blk)

/-- `buddy_init`, given what its two calls of `malloc` return and the store they
leave. -/
def buddyInit (bud mem : Option Addr) (heap : Store Addr) : Option BuddyT :=
  match bud, mem with
  | none, _ => none
  | some _, none => none
  | some addr, some mem =>
      let heap := (List.range (buddyOrders + 1)).foldl
        (fun m i => kdlistHeadInit m (headAddr addr i)) heap
      let heap := kdlistPushTail heap (headAddr addr buddyOrders) (pagePtrAlign mem)
      some { addr := addr, mem := mem, treeMask := 0, heap := heap }

/-- `buddy_alloc`. -/
def buddyAlloc (fuel : Nat) (bud : BuddyT) (bytes : BitVec 32) : Option (Option Addr × BuddyT) :=
  let order := size2Order bytes
  if buddyOrders + 1 ≤ order then some (none, bud) else blkAlloc fuel bud order

/-- The `for` loop of `buddy_free`, over the levels below `level`. -/
def buddyFreeLevel (bud : BuddyT) (blk : Addr) : Nat → Int × BuddyT
  | 0 => (-1, bud)
  | level + 1 =>
      if !blkInLvlAligned blk bud.sAligned level then buddyFreeLevel bud blk level
      else if blkIsAllocated bud.treeMask blk bud.sAligned level then blkFree bud blk level
      else buddyFreeLevel bud blk level

/-- `buddy_free`. -/
def buddyFree (bud : BuddyT) (blk : Addr) : Int × BuddyT :=
  let s := bud.sAligned
  if blk = 0 ∨ blk < s ∨ s + BitVec.ofNat 64 buddyMem < blk ∨ blk ≠ pagePtrAlign blk then (-1, bud)
  else buddyFreeLevel bud blk (buddyOrders + 1)

end DataStructures.Buddy
