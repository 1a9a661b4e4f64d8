import DataStructures.Tree.Trie.Exact

/-!
# Listing by a NULL prefix

Without a prefix `trie_get_leafs_by_prefix` and `trie_print_leafs_by_prefix` jump to their recursion past
the assignment of `tmp`.  Here they are given what `tmp` holds at their start, which in the source is
nothing (`trieGetLeafsByPrefix_eq`, `triePrintLeafsByPrefix_eq`).

`nullPrefix_unassigned`: **NULL lists nothing on any trie, and would list what the empty prefix lists**
if `tmp` were the root from the start.
-/

namespace DataStructures.Trie

open Lib Memory Kslist Trie.Tree

variable {m : Heap} {t : Tree} {l : WordHeap} {es : List Nat} {ws : List Str} {root : Ptr}

/-! ### The variable at the label -/

/-- From `recursive_lookup` on. -/
def recursiveLookup (m : Heap) (tmp : Ptr) (i : Nat) (word : Buffer) (l : WordHeap) :
    Option (Int × WordHeap) := do
  let (failed, _, l) ← trieRecursiveGetLeafs m m.next tmp i (word, l)
  if failed then
    let l ← destroyEntries l
    return (-1, l)
  return (0, l)

/-- `trie_get_leafs_by_prefix`, with a value of `tmp` at the start if there is one. -/
def trieGetLeafsByPrefixFrom (start : Option Ptr) (m : Heap) (root : Ptr) (str : Option Str)
    (l : WordHeap) : Option (Int × WordHeap) :=
  if root.isNone then some (-1, l)
  else
    match str with
    | none => do
        let tmp ← start
        recursiveLookup m tmp 0 (fun _ => none) l
    | some s => do
        let (tmp, word) ← triePrefixFrom m root s 0 (fun _ => none)
        if tmp.isNone then return (-1, l)
        recursiveLookup m tmp s.length word l

/-- `trie_print_leafs_by_prefix`, with a value of `tmp` at the start if there is one. -/
def triePrintLeafsByPrefixFrom (start : Option Ptr) (m : Heap) (root : Ptr) (str : Option Str) :
    Option (List Str) :=
  if root.isNone then some []
  else
    match str with
    | none => do
        let tmp ← start
        let (_, out) ← trieRecursivePrintLeafs m m.next tmp 0 (fun _ => none, [])
        return out
    | some s => do
        let (tmp, word) ← triePrefixFrom m root s 0 (fun _ => none)
        if tmp.isNone then return []
        let (_, out) ← trieRecursivePrintLeafs m m.next tmp s.length (word, [])
        return out

/-- **In the source `tmp` holds nothing.** -/
theorem trieGetLeafsByPrefix_eq (m : Heap) (root : Ptr) (str : Option Str) (l : WordHeap) :
    trieGetLeafsByPrefixFrom none m root str l = trieGetLeafsByPrefix m root str l := by
  cases str with
  | none => rfl
  | some s => rfl

theorem triePrintLeafsByPrefix_eq (m : Heap) (root : Ptr) (str : Option Str) :
    triePrintLeafsByPrefixFrom none m root str = triePrintLeafsByPrefix m root str := by
  cases str with
  | none => rfl
  | some s => rfl

/-- With the root in `tmp`, NULL is the empty prefix. -/
theorem getLeafs_assigned (hroot : ¬ root.isNone = true) :
    trieGetLeafsByPrefixFrom (some root) m root none l = trieGetLeafsByPrefix m root (some []) l := by
  rw [← trieGetLeafsByPrefix_eq, trieGetLeafsByPrefixFrom, if_neg hroot, trieGetLeafsByPrefixFrom,
    if_neg hroot]
  simp only [triePrefixFrom, Option.bind_eq_bind, Option.bind_some, if_neg hroot, List.length_nil]

theorem printLeafs_assigned (hroot : ¬ root.isNone = true) :
    triePrintLeafsByPrefixFrom (some root) m root none = triePrintLeafsByPrefix m root (some []) := by
  rw [← triePrintLeafsByPrefix_eq, triePrintLeafsByPrefixFrom, if_neg hroot, triePrintLeafsByPrefixFrom,
    if_neg hroot]
  simp only [triePrefixFrom, Option.bind_eq_bind, Option.bind_some, if_neg hroot, List.length_nil]

/-! ### The whole trie -/

/-- The call with NULL returns 0 and appends the words that the call with the empty prefix appends. -/
def NullListsAll (getLeafs : Option Str → WordHeap → Option (Int × WordHeap)) (l : WordHeap)
    (es : List Nat) (ws : List Str) : Prop :=
  ∃ l₁ l₂ es₁ es₂ us, getLeafs none l = some (0, l₁) ∧ getLeafs (some []) l = some (0, l₂) ∧
    Entries l₁ (es ++ es₁) (ws ++ us) ∧ Entries l₂ (es ++ es₂) (ws ++ us)

/-- The call with NULL prints what the call with the empty prefix prints. -/
def NullPrintsAll (printLeafs : Option Str → Option (List Str)) : Prop :=
  ∃ out, printLeafs none = some out ∧ printLeafs (some []) = some out

/-- **NULL is never read as the empty prefix**, as `tmp` is read before it is assigned. -/
theorem Good.not_nullListsAll {n : Nat} (h : Good m root n t) :
    ¬ NullListsAll (trieGetLeafsByPrefix m root) l es ws ∧ ¬ NullPrintsAll (triePrintLeafsByPrefix m root) := by
  constructor
  · rintro ⟨l₁, _, _, _, _, hr, -⟩
    rw [trieGetLeafsByPrefix, if_neg h.isSome] at hr
    cases hr
  · rintro ⟨out, hr, -⟩
    rw [triePrintLeafsByPrefix, if_neg h.isSome] at hr
    cases hr

/-- It would be with `tmp = root` before the jump. -/
theorem Good.nullListsAll (h : Good m root maxWordLen t) (he : Entries l es ws)
    (ho : l.outcomes = Outcomes.allOk) :
    NullListsAll (trieGetLeafsByPrefixFrom (some root) m root) l es ws ∧
      NullPrintsAll (triePrintLeafsByPrefixFrom (some root) m root) := by
  have hne : t.sub [] ≠ nil := by
    rw [sub_nil]
    exact h.ne_nil
  obtain ⟨⟨l', es', hr, he'⟩, hprint⟩ := h.byPrefix_some (by decide) hne he ho
  constructor
  · refine ⟨l', l', es', es', _, ?_, ?_, he', he'⟩
    · rw [getLeafs_assigned h.isSome]
      exact hr
    · exact hr
  · refine ⟨_, ?_, hprint⟩
    rw [printLeafs_assigned h.isSome]
    exact hprint

/-- **A NULL prefix lists the whole trie only if `tmp` is assigned before the jump.**  On every trie built
from words that fit, and with allocations that succeed, the calls with NULL as they are neither list nor
print; with `tmp = root` before the jump they list and print what the empty prefix does. -/
theorem nullPrefix_unassigned (m₀ : Heap) (S : List Word) (hlen : ∀ w ∈ S, w.length < maxWordLen)
    (hok : m₀.outcomes = Outcomes.allOk) :
    ∃ root m, trieBuild m₀ S = some (root, m) ∧
      ∀ l es ws, Entries l es ws → l.outcomes = Outcomes.allOk →
        (¬ NullListsAll (trieGetLeafsByPrefix m root) l es ws ∧
          ¬ NullPrintsAll (triePrintLeafsByPrefix m root)) ∧
        NullListsAll (trieGetLeafsByPrefixFrom (some root) m root) l es ws ∧
          NullPrintsAll (triePrintLeafsByPrefixFrom (some root) m root) := by
  obtain ⟨root, m, hbuild⟩ := trieBuild_allOk hlen (by decide) hok
  obtain ⟨t, h, -⟩ := trieBuild_spec hlen (by decide) hbuild
  exact ⟨root, m, hbuild, fun l es ws he ho => ⟨h.not_nullListsAll, h.nullListsAll he ho⟩⟩

theorem nullPrefix_unassigned_two :
    ∃ root m, trieBuild (Memory.empty Outcomes.allOk) [[0, 1], [0]] = some (root, m) ∧
      ∀ l es ws, Entries l es ws → l.outcomes = Outcomes.allOk →
        (¬ NullListsAll (trieGetLeafsByPrefix m root) l es ws ∧
          ¬ NullPrintsAll (triePrintLeafsByPrefix m root)) ∧
        NullListsAll (trieGetLeafsByPrefixFrom (some root) m root) l es ws ∧
          NullPrintsAll (triePrintLeafsByPrefixFrom (some root) m root) :=
  nullPrefix_unassigned (Memory.empty Outcomes.allOk) [[0, 1], [0]] (by decide) rfl

/-- The trie of one word, which the empty prefix lists. -/
theorem nullPrefix_one : ∃ root m, trieBuild (Memory.empty Outcomes.allOk) [[0]] = some (root, m) ∧
    triePrintLeafsByPrefix m root (some []) = some [str [0]] ∧
    triePrintLeafsByPrefix m root none = none ∧
    trieGetLeafsByPrefix m root none ⟨fun _ => some none, fun _ => none, 0, .allOk⟩ = none ∧
    ¬ NullListsAll (trieGetLeafsByPrefix m root) ⟨fun _ => some none, fun _ => none, 0, .allOk⟩ [] [] ∧
    ¬ NullPrintsAll (triePrintLeafsByPrefix m root) := by
  refine ⟨some 0, _, rfl, rfl, rfl, rfl, ?_, ?_⟩
  · rintro ⟨_, _, _, _, _, hr, -⟩
    cases hr
  · rintro ⟨_, hr, -⟩
    cases hr

end DataStructures.Trie
