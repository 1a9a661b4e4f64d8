import DataStructures.Tree.Trie.Listing
import DataStructures.Lib.Trace

/-!
# What the listing functions access

The listing functions of the trie once more, with a log of the places of `word` they write and of
the places of `word_list` they read.  An access is logged before it is made, so one outside the
array is the last in the log.

The four recursions are `recursiveLeafs` and `recursiveRegex`, with what is done for a word that
is found.  Without the log the functions are those of the model (`result_trieGetLeafsByPrefix`
and the theorems after it).
-/

namespace DataStructures.Trie.Accesses

open Lib Traced

/-- A place that is accessed. -/
inductive Access
  | word (i : Nat)
  | wordList (i : Nat)

/-- It is inside its array. -/
def Access.InBounds : Access → Prop
  | word i => i < maxWordLen
  | wordList i => i < maxWordLen

variable {σ : Type}

/-- `word[i] = c`. -/
def putChar (word : Buffer) (i : Nat) (c : UInt8) : Traced Access Buffer := do
  access (.word i)
  lift (Trie.putChar word i c)

/-- `regex->word_list[level]`. -/
def letterRegex (regex : TrieRegex) (level : Nat) : Traced Access LetterRegex := do
  access (.wordList level)
  lift (Trie.letterRegex regex level)

/-- Going on after a call, if it has not failed. -/
def andThen (r : Traced Access (Bool × σ)) (f : σ → Traced Access (Bool × σ)) :
    Traced Access (Bool × σ) := do
  let (failed, s) ← r
  if failed then return (true, s)
  f s

/-- A loop over the children that stops where a call fails. -/
def eachChild (f : Fin childrenNo → σ → Traced Access (Bool × σ)) :
    List (Fin childrenNo) → σ → Traced Access (Bool × σ)
  | [], s => pure (false, s)
  | i :: is, s => andThen (f i s) (eachChild f is)

/-- What is done for a word that is found. -/
abbrev Emit (σ : Type) := Buffer → Nat → σ → Traced Access (Bool × Buffer × σ)

/-- Its end is written, and an entry made. -/
def addWord : Emit WordHeap := fun word level l => do
  access (.word level)
  lift (Trie.addWord word level l)

/-- It is printed, which writes nothing. -/
def printWord : Emit (List Str) := fun word level out =>
  lift ((Trie.printWord word level out).map (fun s => (false, s)))

/-! ### The functions -/

/-- `__trie_recursive_get_leafs` and `__trie_recursive_print_leafs`. -/
def recursiveLeafs (emit : Emit σ) (m : Heap) :
    Nat → Ptr → Nat → Buffer × σ → Traced Access (Bool × Buffer × σ)
  | 0, _, _, _ => lift none
  | depth + 1, p, level, s => do
      let node ← lift (m.load p)
      andThen (if node.isLeaf then emit s.1 level s.2 else pure (false, s))
        (eachChild (fun i s =>
          if (node.children i).isSome then do
            let word ← putChar s.1 level (letter i)
            recursiveLeafs emit m depth (node.children i) (level + 1) (word, s.2)
          else pure (false, s)) (List.finRange childrenNo))

/-- `__trie_recursive_get_regex` and `__trie_recursive_print_regex`. -/
def recursiveRegex (emit : Emit σ) (m : Heap) (regex : TrieRegex) :
    Nat → Ptr → Nat → Buffer × σ → Traced Access (Bool × Buffer × σ)
  | 0, _, _, _ => lift none
  | depth + 1, p, level, s =>
      if level = regex.wordLen.toNat then do
        let node ← lift (m.load p)
        if node.isLeaf then emit s.1 level s.2 else pure (false, s)
      else do
        let node ← lift (m.load p)
        eachChild (fun i s =>
          if (node.children i).isNone then pure (false, s)
          else do
            let r ← letterRegex regex level
            match r.opt with
            | .valInList =>
                if maskHas r.mask i then do
                  let word ← putChar s.1 level (letter i)
                  recursiveRegex emit m regex depth (node.children i) (level + 1) (word, s.2)
                else pure (false, s)
            | .valNotInList =>
                if !maskHas r.mask i then do
                  let word ← putChar s.1 level (letter i)
                  recursiveRegex emit m regex depth (node.children i) (level + 1) (word, s.2)
                else pure (false, s)
            | .other => lift none) (List.finRange childrenNo) s

/-- The loop over the prefix. -/
def triePrefixFrom (m : Heap) : Ptr → Str → Nat → Buffer → Traced Access (Ptr × Buffer)
  | tmp, [], _, word => pure (tmp, word)
  | tmp, c :: s, i, word => do
      let word ← putChar word i c
      let ch ← lift (childIdx c)
      let node ← lift (m.load tmp)
      if (node.children ch).isNone then return (none, word)
      triePrefixFrom m (node.children ch) s (i + 1) word

/-- `trie_get_leafs_by_prefix`, of a string that is not NULL. -/
def trieGetLeafsByPrefix (m : Heap) (root : Ptr) (s : Str) (l : WordHeap) :
    Traced Access (Int × WordHeap) :=
  if root.isNone then pure (-1, l)
  else do
    let (tmp, word) ← triePrefixFrom m root s 0 (fun _ => none)
    if tmp.isNone then return (-1, l)
    let (failed, _, l) ← recursiveLeafs addWord m m.next tmp s.length (word, l)
    if failed then
      let l ← lift (destroyEntries l)
      return (-1, l)
    return (0, l)

/-- `trie_print_leafs_by_prefix`, of a string that is not NULL. -/
def triePrintLeafsByPrefix (m : Heap) (root : Ptr) (s : Str) : Traced Access (List Str) :=
  if root.isNone then pure []
  else do
    let (tmp, word) ← triePrefixFrom m root s 0 (fun _ => none)
    if tmp.isNone then return []
    let (_, _, out) ← recursiveLeafs printWord m m.next tmp s.length (word, [])
    return out

/-- `trie_get_leafs_by_regex`. -/
def trieGetLeafsByRegex (m : Heap) (root : Ptr) (regex : TrieRegex) (l : WordHeap) :
    Traced Access (Int × WordHeap) :=
  if root.isNone || regex.wordLen = 0 then pure (-1, l)
  else do
    let (failed, _, l) ← recursiveRegex addWord m regex m.next root 0 (fun _ => none, l)
    if failed then
      let l ← lift (destroyEntries l)
      return (-1, l)
    return (0, l)

/-- `trie_print_leafs_by_regex`. -/
def triePrintLeafsByRegex (m : Heap) (root : Ptr) (regex : TrieRegex) : Traced Access (List Str) :=
  if root.isNone || regex.wordLen = 0 then pure []
  else do
    let (_, _, out) ← recursiveRegex printWord m regex m.next root 0 (fun _ => none, [])
    return out

/-! ### Without the log -/

variable {m : Heap} {regex : TrieRegex}

theorem result_andThen (r : Traced Access (Bool × σ)) (f : σ → Traced Access (Bool × σ)) :
    (andThen r f).result = Trie.andThen r.result (fun s => (f s).result) := by
  rw [andThen, result_bind, Trie.andThen]
  refine Option.bind_congr (fun x _ => ?_)
  obtain ⟨failed, s⟩ := x
  cases failed with
  | true => rfl
  | false => rfl

theorem result_eachChild {f : Fin childrenNo → σ → Traced Access (Bool × σ)}
    {g : Fin childrenNo → σ → Option (Bool × σ)} (hf : ∀ i s, (f i s).result = g i s)
    (is : List (Fin childrenNo)) (s : σ) : (eachChild f is s).result = Trie.eachChild g is s := by
  induction is generalizing s with
  | nil => rfl
  | cons i is ih =>
    rw [eachChild, result_andThen, Trie.eachChild, hf]
    exact congrArg _ (funext ih)

theorem result_putChar (word : Buffer) (i : Nat) (c : UInt8) :
    (putChar word i c).result = Trie.putChar word i c := by
  rw [putChar, result_bind]
  rfl

theorem result_letterRegex (regex : TrieRegex) (level : Nat) :
    (letterRegex regex level).result = Trie.letterRegex regex level := by
  rw [letterRegex, result_bind]
  rfl

theorem result_addWord (word : Buffer) (level : Nat) (l : WordHeap) :
    (addWord word level l).result = Trie.addWord word level l := by
  rw [addWord, result_bind]
  rfl

theorem result_recursiveGetLeafs (n : Nat) (p : Ptr) (level : Nat) (s : Buffer × WordHeap) :
    (recursiveLeafs addWord m n p level s).result = trieRecursiveGetLeafs m n p level s := by
  induction n generalizing p level s with
  | zero => rfl
  | succ n ih =>
    rw [recursiveLeafs, trieRecursiveGetLeafs, result_bind, result_lift]
    refine Option.bind_congr (fun node _ => ?_)
    rw [result_andThen, result_ite, result_addWord, result_pure]
    refine congrArg _ (funext (fun s => ?_))
    refine result_eachChild (fun i s => ?_) _ s
    rw [result_ite, result_bind, result_putChar, result_pure]
    simp only [ih]
    rfl

/-- The result of a function that never fails. -/
abbrev ok (x : Option σ) : Option (Bool × σ) := x.map (fun s => (false, s))

theorem andThen_ok_map (x : Option σ) (f : σ → Option (Bool × σ)) :
    Trie.andThen (ok x) f = x.bind f := by
  cases x with
  | none => rfl
  | some s => rfl

/-- A loop whose rounds never fail. -/
theorem eachChild_ok {f : Fin childrenNo → σ → Option (Bool × σ)} {g : σ → Fin childrenNo → Option σ}
    (hf : ∀ i s, f i s = ok (g s i)) (is : List (Fin childrenNo)) (s : σ) :
    Trie.eachChild f is s = ok (is.foldlM g s) := by
  induction is generalizing s with
  | nil => rfl
  | cons i is ih =>
    rw [Trie.eachChild, hf, andThen_ok_map, List.foldlM_cons, Option.bind_eq_bind, ok, Option.map_bind]
    exact Option.bind_congr (fun s _ => ih s)

theorem result_recursivePrintLeafs (n : Nat) (p : Ptr) (level : Nat) (s : Buffer × List Str) :
    (recursiveLeafs printWord m n p level s).result = ok (trieRecursivePrintLeafs m n p level s) := by
  induction n generalizing p level s with
  | zero => rfl
  | succ n ih =>
    rw [recursiveLeafs, trieRecursivePrintLeafs, result_bind, result_lift, Option.bind_eq_bind, ok,
      Option.map_bind]
    refine Option.bind_congr (fun node _ => ?_)
    have hleaf : (if node.isLeaf then printWord s.1 level s.2 else pure (false, s)).result =
        ok (if node.isLeaf then Trie.printWord s.1 level s.2 else some s) := by
      rw [result_ite]
      split
      · rfl
      · rfl
    rw [result_andThen, hleaf, andThen_ok_map, Function.comp, Option.bind_eq_bind, Option.map_bind]
    refine Option.bind_congr (fun s _ => ?_)
    rw [result_eachChild (fun _ _ => rfl)]
    refine eachChild_ok (fun i s => ?_) _ s
    rw [result_ite, result_bind, result_putChar, result_pure]
    simp only [ih]
    split
    · rw [Option.bind_eq_bind, ok, Option.map_bind]
      rfl
    · rfl

/-- **The functions without the log are those of the model.** -/
theorem result_recursiveGetRegex (n : Nat) (p : Ptr) (level : Nat) (s : Buffer × WordHeap) :
    (recursiveRegex addWord m regex n p level s).result =
      trieRecursiveGetRegex m regex n p level s := by
  induction n generalizing p level s with
  | zero => rfl
  | succ n ih =>
    rw [recursiveRegex, trieRecursiveGetRegex]
    by_cases hl : level = regex.wordLen.toNat
    · rw [if_pos hl, if_pos hl, result_bind, result_lift]
      refine Option.bind_congr (fun node _ => ?_)
      rw [result_ite, result_addWord, result_pure]
    · rw [if_neg hl, if_neg hl, result_bind, result_lift]
      refine Option.bind_congr (fun node _ => ?_)
      refine result_eachChild (fun i s => ?_) _ s
      rw [result_ite, result_pure, result_bind, result_letterRegex]
      refine congrArg (ite _ _) (Option.bind_congr (fun r _ => ?_))
      cases r.opt with
      | other => rfl
      | valInList =>
        simp only [result_ite, result_bind, result_putChar, ih]
        rfl
      | valNotInList =>
        simp only [result_ite, result_bind, result_putChar, ih]
        rfl

theorem result_recursivePrintRegex (n : Nat) (p : Ptr) (level : Nat) (s : Buffer × List Str) :
    (recursiveRegex printWord m regex n p level s).result =
      ok (trieRecursivePrintRegex m regex n p level s) := by
  induction n generalizing p level s with
  | zero => rfl
  | succ n ih =>
    rw [recursiveRegex, trieRecursivePrintRegex]
    by_cases hl : level = regex.wordLen.toNat
    · rw [if_pos hl, if_pos hl, result_bind, result_lift, Option.bind_eq_bind, ok, Option.map_bind]
      refine Option.bind_congr (fun node _ => ?_)
      rw [result_ite, Function.comp]
      split
      · rfl
      · rfl
    · rw [if_neg hl, if_neg hl, result_bind, result_lift, Option.bind_eq_bind, ok, Option.map_bind]
      refine Option.bind_congr (fun node _ => ?_)
      rw [result_eachChild (fun _ _ => rfl)]
      refine eachChild_ok (fun i s => ?_) _ s
      rw [result_ite, result_pure, result_bind, result_letterRegex]
      split
      · rfl
      · rw [Option.bind_eq_bind, ok, Option.map_bind]
        refine Option.bind_congr (fun r _ => ?_)
        have hcall : (do
            let word ← putChar s.1 level (letter i)
            recursiveRegex printWord m regex n (node.children i) (level + 1) (word, s.2)).result =
              ok (do
                let word ← Trie.putChar s.1 level (letter i)
                trieRecursivePrintRegex m regex n (node.children i) (level + 1) (word, s.2)) := by
          rw [result_bind, result_putChar, Option.bind_eq_bind, ok, Option.map_bind]
          exact Option.bind_congr (fun word _ => ih _ _ _)
        rw [Function.comp]
        cases r.opt with
        | other => rfl
        | valInList =>
          dsimp only
          rw [result_ite, hcall]
          split
          · rfl
          · rfl
        | valNotInList =>
          dsimp only
          rw [result_ite, hcall]
          split
          · rfl
          · rfl

theorem result_triePrefixFrom (p : Ptr) (s : Str) (i : Nat) (word : Buffer) :
    (triePrefixFrom m p s i word).result = Trie.triePrefixFrom m p s i word := by
  induction s generalizing p i word with
  | nil => rfl
  | cons c s ih =>
    rw [triePrefixFrom, Trie.triePrefixFrom, result_bind, result_putChar]
    refine Option.bind_congr (fun word _ => ?_)
    rw [result_bind, result_lift]
    refine Option.bind_congr (fun ch _ => ?_)
    rw [result_bind, result_lift]
    refine Option.bind_congr (fun node _ => ?_)
    rw [result_ite, ih]
    rfl

theorem result_trieGetLeafsByPrefix (root : Ptr) (s : Str) (l : WordHeap) :
    (trieGetLeafsByPrefix m root s l).result = Trie.trieGetLeafsByPrefix m root (some s) l := by
  rw [trieGetLeafsByPrefix, Trie.trieGetLeafsByPrefix, result_ite, result_bind, result_triePrefixFrom]
  refine congrArg (ite _ _) (Option.bind_congr (fun tw _ => ?_))
  rw [result_ite, result_bind, result_recursiveGetLeafs]
  refine congrArg (ite _ _) (Option.bind_congr (fun r _ => ?_))
  rw [result_ite, result_bind]
  rfl

theorem result_triePrintLeafsByPrefix (root : Ptr) (s : Str) :
    (triePrintLeafsByPrefix m root s).result = Trie.triePrintLeafsByPrefix m root (some s) := by
  rw [triePrintLeafsByPrefix, Trie.triePrintLeafsByPrefix, result_ite, result_bind,
    result_triePrefixFrom]
  refine congrArg (ite _ _) (Option.bind_congr (fun tw _ => ?_))
  rw [result_ite, result_bind, result_recursivePrintLeafs, ok, Option.bind_map]
  rfl

theorem result_trieGetLeafsByRegex (root : Ptr) (l : WordHeap) :
    (trieGetLeafsByRegex m root regex l).result = Trie.trieGetLeafsByRegex m root (some regex) l := by
  rw [trieGetLeafsByRegex, Trie.trieGetLeafsByRegex, result_ite, result_bind, result_recursiveGetRegex]
  refine congrArg (ite _ _) (Option.bind_congr (fun r _ => ?_))
  rw [result_ite, result_bind]
  rfl

theorem result_triePrintLeafsByRegex (root : Ptr) :
    (triePrintLeafsByRegex m root regex).result = Trie.triePrintLeafsByRegex m root (some regex) := by
  rw [triePrintLeafsByRegex, Trie.triePrintLeafsByRegex, result_ite, result_bind,
    result_recursivePrintRegex, ok, Option.bind_map]
  rfl

end DataStructures.Trie.Accesses
