import DataStructures.Lib.Memory
import DataStructures.List.Kslist
import Mathlib.Data.List.FinRange

/-!
# `tree/trie.c`

The trie as it computes, on a memory of nodes.  Every node read is a `load`, every
assignment through a pointer is a `store`, and `none` as the result of a function
means that it has done something that is not defined: it has followed a null or
dangling pointer, left an array, read a variable that was not written, or run into an
assertion that fails.

Strings are lists of bytes without their terminator, `none` is a NULL pointer.  What
`malloc` and `strdup` answer is taken from the outcomes in the memory.  Recursions take
a depth, which the public functions set to the number of addresses ever handed out.

The word entries live in a memory of their own (`WordHeap`), linked through `node` into
the list of a caller, whose head is `.head`.  A printing function returns the lines it
has printed.  `trie_print`, which shows the whole data structure, is left out.
-/

namespace DataStructures.Trie

open Lib Kslist

/-- `CHILDREN_NO`. -/
abbrev childrenNo : Nat := 26

/-- `MAX_WORD_LEN`. -/
def maxWordLen : Nat := 128

/-- A string. -/
abbrev Str := List UInt8

/-- `trie_node_t`. -/
structure TrieNode where
  children : Fin childrenNo → Ptr
  isLeaf : Bool

/-- The memory the nodes live in. -/
abbrev Heap := Memory TrieNode

/-- The index `c - 'a'` into `children`; other values are outside the array. -/
def childIdx (c : UInt8) : Option (Fin childrenNo) :=
  let ch := c - 97
  if h : ch.toNat < childrenNo then some ⟨ch.toNat, h⟩ else none

/-- `i + 'a'`. -/
def letter (i : Fin childrenNo) : UInt8 := UInt8.ofNat (i.val + 97)

/-- `tmp->children[ch] = p`. -/
def setChild (m : Heap) (tmp : Ptr) (ch : Fin childrenNo) (p : Ptr) : Option Heap := do
  let node ← m.load tmp
  m.store tmp { node with children := Function.update node.children ch p }

/-! ### Nodes -/

/-- `trie_node_create`. -/
def trieNodeCreate (m : Heap) : Ptr × Heap := m.malloc ⟨fun _ => none, false⟩

/-- `trie_node_destroy`. -/
def trieNodeDestroy : Nat → Heap → Ptr → Option Heap
  | 0, _, _ => none
  | depth + 1, m, p => do
      let m ← (List.finRange childrenNo).foldlM (fun m i => do
        let node ← m.load p
        if (node.children i).isSome then trieNodeDestroy depth m (node.children i)
        else return m) m
      let _ ← m.load p
      m.free p

/-! ### Insertion, search and deletion -/

/-- The loop of `trie_insert` over the letters that are left, and the mark on the last
node: whether all nodes could be made. -/
def trieInsertFrom : Heap → Ptr → Str → Option (Bool × Heap)
  | m, tmp, [] => do
      let node ← m.load tmp
      let m ← m.store tmp { node with isLeaf := true }
      return (true, m)
  | m, tmp, c :: s => do
      let node ← m.load tmp
      let ch ← childIdx c
      if (node.children ch).isSome then trieInsertFrom m (node.children ch) s
      else
        let (child, m) := trieNodeCreate m
        let m ← setChild m tmp ch child
        if child.isNone then return (false, m)
        trieInsertFrom m child s

/-- `trie_insert`. -/
def trieInsert (m : Heap) (root : Ptr) : Option Str → Option (Ptr × Heap)
  | none => some (none, m)
  | some s =>
      if root.isNone then some (none, m)
      else do
        let (ok, m) ← trieInsertFrom m root s
        return (if ok then root else none, m)

/-- The loop of `trie_longest_prefix` from letter `i` on. -/
def trieLongestPrefixFrom (m : Heap) : Ptr → Str → Nat → UInt8 → Option Int
  | _, [], _, pfx => some pfx.toNat
  | tmp, c :: s, i, pfx => do
      let node ← m.load tmp
      let ch ← childIdx c
      if (node.children ch).isNone then return -1
      let branching := (List.finRange childrenNo).any (fun j => j != ch && (node.children j).isSome)
      trieLongestPrefixFrom m (node.children ch) s (i + 1)
        (if branching then UInt8.ofNat (i + 1) else pfx)

/-- `trie_longest_prefix`. -/
def trieLongestPrefix (m : Heap) (root : Ptr) : Option Str → Option Int
  | none => some (-1)
  | some s => if root.isNone then some (-1) else trieLongestPrefixFrom m root s 0 0

/-- The loop of `trie_delete` to the parent of the node that goes. -/
def trieWalk (m : Heap) : Ptr → Str → Option Ptr
  | tmp, [] => some tmp
  | tmp, c :: s => do
      let node ← m.load tmp
      let ch ← childIdx c
      if (node.children ch).isNone then none -- the assertion fails
      else trieWalk m (node.children ch) s

/-- `trie_delete`. -/
def trieDelete (m : Heap) (root : Ptr) : Option Str → Option (Ptr × Heap)
  | none => some (none, m)
  | some s =>
      if root.isNone then some (none, m)
      else do
        let pfx ← trieLongestPrefix m root (some s)
        if pfx < 0 then return (none, m)
        if pfx = 0 then
          -- `str[0]` of the empty string is its terminator
          let ch ← childIdx (s.headD 0)
          let node ← m.load root
          if (node.children ch).isNone then none
          else
            let m ← trieNodeDestroy m.next m (node.children ch)
            return (root, m)
        else
          let last := pfx.toNat - 1
          let c ← s[last]?
          let tmp ← trieWalk m root (s.take last)
          let ch ← childIdx c
          let node ← m.load tmp
          if (node.children ch).isNone then none
          else
            let m ← trieNodeDestroy m.next m (node.children ch)
            let m ← setChild m tmp ch none
            return (root, m)

/-- `trie_search`, from a node on. -/
def trieSearchFrom (m : Heap) : Ptr → Str → Option Bool
  | tmp, [] => do
      let node ← m.load tmp
      return node.isLeaf
  | tmp, c :: s => do
      let node ← m.load tmp
      let ch ← childIdx c
      if (node.children ch).isNone then return false
      trieSearchFrom m (node.children ch) s

/-- `trie_search`. -/
def trieSearch (m : Heap) (root : Ptr) : Option Str → Option Bool
  | none => some false
  | some s => if root.isNone then some false else trieSearchFrom m root s

/-! ### The word buffer -/

/-- The array `word`; what has not been written is `none`. -/
abbrev Buffer := Nat → Option UInt8

/-- `word[i] = c`. -/
def putChar (word : Buffer) (i : Nat) (c : UInt8) : Option Buffer :=
  if i < maxWordLen then some (Function.update word i (some c)) else none

/-- The string at `word + i`, read up to its terminator. -/
def readStr (word : Buffer) : Nat → Nat → Option Str
  | 0, _ => none
  | n + 1, i => do
      let c ← word i
      if c = 0 then return []
      let s ← readStr word n (i + 1)
      return c :: s

/-- What `%.*s` prints of `word + i`: at most `n` bytes. -/
def readPrecision (word : Buffer) : Nat → Nat → Option Str
  | 0, _ => some []
  | n + 1, i => do
      let c ← word i
      if c = 0 then return []
      let s ← readPrecision word n (i + 1)
      return c :: s

/-! ### Word entries -/

/-- The head of a list of words, or the `node` of a word entry. -/
inductive WordNode
  | head
  | entry (addr : Nat)
deriving DecidableEq, Repr

/-- The word entries, the links between them, and what the allocations to come answer. -/
structure WordHeap where
  links : Kslist.Store WordNode
  words : Nat → Option Str
  next : Nat
  outcomes : Outcomes

/-- `trie_word_entry_create`: the entry, or NULL. -/
def trieWordEntryCreate (l : WordHeap) (word : Str) : Option Nat × WordHeap :=
  if !l.outcomes.first then (none, { l with outcomes := l.outcomes.rest })
  else if !l.outcomes.rest.first then (none, { l with outcomes := l.outcomes.rest.rest })
  else
    (some l.next,
      { links := Function.update l.links (.entry l.next) (some none)
        words := Function.update l.words l.next (some word)
        next := l.next + 1
        outcomes := l.outcomes.rest.rest })

/-- `trie_word_entry_destroy`. -/
def trieWordEntryDestroy (l : WordHeap) (entry : Nat) : Option WordHeap := do
  let _ ← l.words entry
  return { l with
    links := Function.update l.links (.entry entry) none
    words := Function.update l.words entry none }

/-- `kslist_push_tail(list, &entry->node)`. -/
def pushEntry (l : WordHeap) (entry : Nat) : Option WordHeap := do
  let links ← kslistPushTail (l.next + 1) l.links .head (.entry entry)
  return { l with links := links }

/-- The cleanup of `destroy_list`. -/
def destroyEntries (l : WordHeap) : Option WordHeap :=
  kslistForEachSafe WordHeap.links (fun l x =>
    match x with
    | .head => none -- no entry around a list head
    | .entry e => trieWordEntryDestroy l e) (l.next + 1) l .head

/-- Making an entry of the string in the buffer, with its end at `level`, and pushing
it: whether it could not be made. -/
def addWord (word : Buffer) (level : Nat) (l : WordHeap) : Option (Bool × Buffer × WordHeap) := do
  let word ← putChar word level 0
  let s ← readStr word maxWordLen 0
  match trieWordEntryCreate l s with
  | (none, l) => return (true, word, l)
  | (some entry, l) =>
      let l ← pushEntry l entry
      return (false, word, l)

/-- The `printf` of the buffer up to `level`, after the lines `out`. -/
def printWord (word : Buffer) (level : Nat) (out : List Str) : Option (Buffer × List Str) := do
  let s ← readPrecision word level 0
  return (word, out ++ [s])

/-- Going on after a call, if it has not failed. -/
def andThen {σ : Type} (r : Option (Bool × σ)) (f : σ → Option (Bool × σ)) :
    Option (Bool × σ) := do
  let (failed, s) ← r
  if failed then return (true, s)
  f s

/-- A loop over the children that stops where a call fails. -/
def eachChild {σ : Type} (f : Fin childrenNo → σ → Option (Bool × σ)) :
    List (Fin childrenNo) → σ → Option (Bool × σ)
  | [], s => some (false, s)
  | i :: is, s => andThen (f i s) (eachChild f is)

/-! ### Listing by prefix -/

/-- `__trie_recursive_get_leafs`, on the buffer and the list: whether it has failed. -/
def trieRecursiveGetLeafs (m : Heap) :
    Nat → Ptr → Nat → Buffer × WordHeap → Option (Bool × Buffer × WordHeap)
  | 0, _, _, _ => none
  | depth + 1, p, level, s => do
      let node ← m.load p
      andThen (if node.isLeaf then addWord s.1 level s.2 else some (false, s))
        (eachChild (fun i s =>
          if (node.children i).isSome then do
            let word ← putChar s.1 level (letter i)
            trieRecursiveGetLeafs m depth (node.children i) (level + 1) (word, s.2)
          else some (false, s)) (List.finRange childrenNo))

/-- `__trie_recursive_print_leafs`, on the buffer and the lines that have been printed. -/
def trieRecursivePrintLeafs (m : Heap) :
    Nat → Ptr → Nat → Buffer × List Str → Option (Buffer × List Str)
  | 0, _, _, _ => none
  | depth + 1, p, level, s => do
      let node ← m.load p
      let s ← (if node.isLeaf then printWord s.1 level s.2 else some s)
      (List.finRange childrenNo).foldlM (fun s i =>
        if (node.children i).isSome then do
          let word ← putChar s.1 level (letter i)
          trieRecursivePrintLeafs m depth (node.children i) (level + 1) (word, s.2)
        else some s) s

/-- The loop over the prefix, from letter `i` on: the last node, NULL where the path
ends before the prefix does, and the buffer. -/
def triePrefixFrom (m : Heap) : Ptr → Str → Nat → Buffer → Option (Ptr × Buffer)
  | tmp, [], _, word => some (tmp, word)
  | tmp, c :: s, i, word => do
      let word ← putChar word i c
      let ch ← childIdx c
      let node ← m.load tmp
      if (node.children ch).isNone then return (none, word)
      triePrefixFrom m (node.children ch) s (i + 1) word

/-- `trie_get_leafs_by_prefix`: 0 or -1, and the word entries. -/
def trieGetLeafsByPrefix (m : Heap) (root : Ptr) (str : Option Str) (l : WordHeap) :
    Option (Int × WordHeap) :=
  if root.isNone then some (-1, l)
  else
    match str with
    | none => none -- `tmp` has not been assigned
    | some s => do
        let (tmp, word) ← triePrefixFrom m root s 0 (fun _ => none)
        if tmp.isNone then return (-1, l)
        let (failed, _, l) ← trieRecursiveGetLeafs m m.next tmp s.length (word, l)
        if failed then
          let l ← destroyEntries l
          return (-1, l)
        return (0, l)

/-- `trie_print_leafs_by_prefix`: the lines it prints. -/
def triePrintLeafsByPrefix (m : Heap) (root : Ptr) (str : Option Str) : Option (List Str) :=
  if root.isNone then some []
  else
    match str with
    | none => none -- `tmp` has not been assigned
    | some s => do
        let (tmp, word) ← triePrefixFrom m root s 0 (fun _ => none)
        if tmp.isNone then return []
        let (_, out) ← trieRecursivePrintLeafs m m.next tmp s.length (word, [])
        return out

/-! ### Listing by pattern -/

/-- `regex_opt_t`; a value that is no constant of the enumeration is `other`. -/
inductive RegexOpt
  | valInList
  | valNotInList
  | other
deriving DecidableEq, Repr

/-- `letter_regex_t`. -/
structure LetterRegex where
  opt : RegexOpt
  mask : BitVec 32
deriving DecidableEq, Repr

/-- `trie_regex_t`. -/
structure TrieRegex where
  wordLen : UInt8
  wordList : Fin maxWordLen → LetterRegex

/-- `regex->word_list[level]`. -/
def letterRegex (regex : TrieRegex) (level : Nat) : Option LetterRegex :=
  if h : level < maxWordLen then some (regex.wordList ⟨level, h⟩) else none

/-- `mask & (1 << i)`. -/
def maskHas (mask : BitVec 32) (i : Fin childrenNo) : Bool := mask &&& (1#32 <<< i.val) != 0

/-- `__trie_recursive_get_regex`, on the buffer and the list: whether it has failed. -/
def trieRecursiveGetRegex (m : Heap) (regex : TrieRegex) :
    Nat → Ptr → Nat → Buffer × WordHeap → Option (Bool × Buffer × WordHeap)
  | 0, _, _, _ => none
  | depth + 1, p, level, s =>
      if level = regex.wordLen.toNat then do
        let node ← m.load p
        if node.isLeaf then addWord s.1 level s.2 else some (false, s)
      else do
        let node ← m.load p
        eachChild (fun i s =>
          if (node.children i).isNone then some (false, s)
          else do
            -- before the loop only the address of the pattern is taken
            let r ← letterRegex regex level
            match r.opt with
            | .valInList =>
                if maskHas r.mask i then do
                  let word ← putChar s.1 level (letter i)
                  trieRecursiveGetRegex m regex depth (node.children i) (level + 1) (word, s.2)
                else some (false, s)
            | .valNotInList =>
                if !maskHas r.mask i then do
                  let word ← putChar s.1 level (letter i)
                  trieRecursiveGetRegex m regex depth (node.children i) (level + 1) (word, s.2)
                else some (false, s)
            | .other => none) (List.finRange childrenNo) s

/-- `__trie_recursive_print_regex`, on the buffer and the lines that have been printed. -/
def trieRecursivePrintRegex (m : Heap) (regex : TrieRegex) :
    Nat → Ptr → Nat → Buffer × List Str → Option (Buffer × List Str)
  | 0, _, _, _ => none
  | depth + 1, p, level, s =>
      if level = regex.wordLen.toNat then do
        let node ← m.load p
        if node.isLeaf then printWord s.1 level s.2 else some s
      else do
        let node ← m.load p
        (List.finRange childrenNo).foldlM (fun s i =>
          if (node.children i).isNone then some s
          else do
            let r ← letterRegex regex level
            match r.opt with
            | .valInList =>
                if maskHas r.mask i then do
                  let word ← putChar s.1 level (letter i)
                  trieRecursivePrintRegex m regex depth (node.children i) (level + 1) (word, s.2)
                else some s
            | .valNotInList =>
                if !maskHas r.mask i then do
                  let word ← putChar s.1 level (letter i)
                  trieRecursivePrintRegex m regex depth (node.children i) (level + 1) (word, s.2)
                else some s
            | .other => none) s

/-- `trie_get_leafs_by_regex`: 0 or -1, and the word entries. -/
def trieGetLeafsByRegex (m : Heap) (root : Ptr) (regex : Option TrieRegex) (l : WordHeap) :
    Option (Int × WordHeap) :=
  match regex with
  | none => some (-1, l)
  | some regex =>
      if root.isNone || regex.wordLen = 0 then some (-1, l)
      else do
        let (failed, _, l) ← trieRecursiveGetRegex m regex m.next root 0 (fun _ => none, l)
        if failed then
          let l ← destroyEntries l
          return (-1, l)
        return (0, l)

/-- `trie_print_leafs_by_regex`: the lines it prints. -/
def triePrintLeafsByRegex (m : Heap) (root : Ptr) (regex : Option TrieRegex) : Option (List Str) :=
  match regex with
  | none => some []
  | some regex =>
      if root.isNone || regex.wordLen = 0 then some []
      else do
        let (_, out) ← trieRecursivePrintRegex m regex m.next root 0 (fun _ => none, [])
        return out

/-- The loop of `trie_letter_list_to_mask`.  The shift of an `int` is defined for
results it can hold. -/
def trieLetterListToMaskFrom : Str → BitVec 32 → Option (BitVec 32)
  | [], mask => some mask
  | c :: s, mask =>
      if 97 ≤ c.toNat ∧ c.toNat - 97 < 31 then
        trieLetterListToMaskFrom s (mask ||| (1#32 <<< (c.toNat - 97)))
      else none

/-- `trie_letter_list_to_mask`. -/
def trieLetterListToMask : Option Str → Option (BitVec 32)
  | none => some 0
  | some s => trieLetterListToMaskFrom s 0

end DataStructures.Trie
