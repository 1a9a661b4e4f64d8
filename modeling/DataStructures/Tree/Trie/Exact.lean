import DataStructures.Tree.Trie.Build
import DataStructures.Tree.Trie.Listing

/-!
# Listing is exact

On a trie built from words of at most 127 letters, and with allocations that succeed:

* `trieLeafs_exact`: **listing by a beginning** gives the words that start with it, in
  alphabetical order and each once, and fails exactly where there is none.
* `trieRegex_exact`: **listing by a pattern** gives the words that fit, in the same way.

The printing functions print what the others append.
-/

namespace DataStructures.Trie

open Lib Memory Kslist Trie.Tree

variable {m : Heap} {t : Tree} {v w p : Word} {word : Buffer} {l : WordHeap} {es : List Nat}
  {ws : List Str} {S : List Word} {root : Ptr}

/-! ### By a beginning -/

/-- The loop over the beginning, once the buffer holds `u`. -/
theorem triePrefixFrom_spec (h : Holds m t) (ht : t ≠ nil) {u : Word} (hf : Filled word u)
    (hlen : u.length + w.length ≤ maxWordLen) : ∃ word',
      triePrefixFrom m t.ptr (str w) u.length word = some ((t.sub w).ptr, word') ∧
      (t.sub w ≠ nil → Filled word' (u ++ w)) := by
  induction w generalizing t u word with
  | nil =>
    rw [sub_nil, List.append_nil]
    exact ⟨word, rfl, fun _ => hf⟩
  | cons c w ih =>
    cases t with
    | nil => exact absurd rfl ht
    | node a leaf kids =>
      rw [List.length_cons] at hlen
      obtain ⟨word₁, hr, hf₁, hend⟩ := hf.putChar (c := letter c) (by omega)
      rw [str_cons, triePrefixFrom, hr, Option.bind_eq_bind, Option.bind_some, childIdx_letter,
        Option.bind_eq_bind, Option.bind_some, ptr_node, h.load, Option.bind_eq_bind,
        Option.bind_some, node_sub_cons]
      by_cases hc : kids c = nil
      · rw [if_pos (isNone_ptr.mpr hc), hc, nil_sub]
        exact ⟨word₁, rfl, fun hne => absurd rfl hne⟩
      · have hsome : ¬ ((kids c).ptr).isNone = true := not_isNone_ptr.mpr hc
        have hlen' : (u ++ [c]).length + w.length ≤ maxWordLen := by
          rw [List.length_append, List.length_singleton]
          omega
        obtain ⟨word', hr', hf'⟩ := ih (h.2 c) hc (hf₁.snoc hend) hlen'
        rw [List.length_append, List.length_singleton] at hr'
        rw [List.append_assoc, List.singleton_append] at hf'
        rw [if_neg hsome]
        exact ⟨word', hr', hf'⟩

/-- The words that go through `p`. -/
def wordsFrom (t : Tree) (p : Word) : List Word := (t.sub p).words.map (p ++ ·)

theorem mem_wordsFrom : v ∈ wordsFrom t p ↔ t.leafAt v = true ∧ p <+: v := by
  rw [wordsFrom, List.mem_map]
  refine ⟨?_, ?_⟩
  · intro h
    obtain ⟨u, hu, rfl⟩ := h
    rw [mem_words, leafAt, ← sub_append] at hu
    exact ⟨hu, List.prefix_append p u⟩
  · intro h
    obtain ⟨hv, u, rfl⟩ := h
    refine ⟨u, ?_, rfl⟩
    rw [mem_words, leafAt, ← sub_append]
    exact hv

theorem map_str_wordsFrom (t : Tree) (p : Word) :
    (wordsFrom t p).map str = (t.sub p).words.map (fun v => str (p ++ v)) := by
  rw [wordsFrom, List.map_map]
  rfl

/-- **The beginning leads nowhere.** -/
theorem Good.byPrefix_none (h : Good m root maxWordLen t) (hp : p.length < maxWordLen)
    (hnil : t.sub p = nil) (l : WordHeap) :
    trieGetLeafsByPrefix m root (some (str p)) l = some (-1, l) ∧
      triePrintLeafsByPrefix m root (some (str p)) = some [] := by
  obtain ⟨word, hr, _⟩ := triePrefixFrom_spec (u := []) h.holds h.ne_nil (filled_nil _) (w := p)
    (by rw [List.length_nil]; omega)
  rw [hnil, ptr_nil, h.ptr] at hr
  rw [trieGetLeafsByPrefix, if_neg h.isSome, triePrintLeafsByPrefix, if_neg h.isSome]
  simp only
  rw [show triePrefixFrom m root (str p) 0 (fun _ => none) = _ from hr]
  exact ⟨rfl, rfl⟩

/-- **The words that go through the beginning.** -/
theorem Good.byPrefix_some (h : Good m root maxWordLen t) (hp : p.length < maxWordLen)
    (hne : t.sub p ≠ nil) (he : Entries l es ws) (ho : l.outcomes = Outcomes.allOk) :
    (∃ l' es', trieGetLeafsByPrefix m root (some (str p)) l = some (0, l') ∧
      Entries l' (es ++ es') (ws ++ (wordsFrom t p).map str)) ∧
    triePrintLeafsByPrefix m root (some (str p)) = some ((wordsFrom t p).map str) := by
  obtain ⟨word, hr, hf⟩ := triePrefixFrom_spec (u := []) h.holds h.ne_nil (filled_nil _) (w := p)
    (by rw [List.length_nil]; omega)
  have hf : Filled word p := hf hne
  rw [h.ptr] at hr
  have hpre : triePrefixFrom m root (str p) 0 (fun _ => none) = some ((t.sub p).ptr, word) := hr
  have hsome : ¬ ((t.sub p).ptr).isNone = true := not_isNone_ptr.mpr hne
  have hholds := h.holds.sub p
  have hn := hholds.deep (h.distinct.sub p)
  have hd := (h.deep.sub hne).2
  rw [map_str_wordsFrom]
  constructor
  · have hs : GetInv p es (word, l) ws := ⟨hf, ho, es, List.prefix_refl es, he⟩
    obtain ⟨⟨word', l'⟩, hr', _, _, es', ⟨es'', rfl⟩, he'⟩ :=
      trieRecursiveGetLeafs_spec hholds hne hn hd hs
    refine ⟨l', es'', ?_, he'⟩
    rw [trieGetLeafsByPrefix, if_neg h.isSome]
    simp only
    rw [hpre, Option.bind_eq_bind, Option.bind_some]
    simp only [if_neg hsome, length_str]
    rw [hr']
    rfl
  · have hs : PrintInv p (word, []) [] := ⟨hf, rfl⟩
    obtain ⟨⟨word', out⟩, hr', _, hout⟩ := trieRecursivePrintLeafs_spec hholds hne hn hd hs
    rw [triePrintLeafsByPrefix, if_neg h.isSome]
    simp only
    rw [hpre, Option.bind_eq_bind, Option.bind_some]
    simp only [if_neg hsome, length_str]
    rw [hr']
    exact congrArg some hout

/-- **Listing by a beginning is exact.**  The words are inserted in any order, with
repetitions; the list of the caller may hold anything. -/
theorem trieLeafs_exact (m₀ : Heap) (S : List Word) (hlen : ∀ w ∈ S, w.length < maxWordLen)
    (hok : m₀.outcomes = Outcomes.allOk) :
    ∃ root m, trieBuild m₀ S = some (root, m) ∧
      (∀ w, trieSearch m root (some (str w)) = some (decide (w ∈ S))) ∧
      ∀ p : Word, p.length < maxWordLen → ∀ l es ws, Entries l es ws →
        l.outcomes = Outcomes.allOk → ∃ us : List Word,
          (∀ v, v ∈ us ↔ v ∈ S ∧ p <+: v) ∧ us.Pairwise (· < ·) ∧
          triePrintLeafsByPrefix m root (some (str p)) = some (us.map str) ∧
          ((p ≠ [] ∧ ∀ w ∈ S, ¬ p <+: w) →
            trieGetLeafsByPrefix m root (some (str p)) l = some (-1, l)) ∧
          (¬ (p ≠ [] ∧ ∀ w ∈ S, ¬ p <+: w) →
            ∃ l' es', trieGetLeafsByPrefix m root (some (str p)) l = some (0, l') ∧
              Entries l' (es ++ es') (ws ++ us.map str)) := by
  obtain ⟨root, m, hbuild⟩ := trieBuild_allOk hlen (by decide) hok
  obtain ⟨t, h, hS⟩ := trieBuild_spec hlen (by decide) hbuild
  refine ⟨root, m, hbuild, h.search hS, fun p hp l es ws he ho => ?_⟩
  have hpath : t.sub p = nil ↔ p ≠ [] ∧ ∀ w ∈ S, ¬ p <+: w := by
    rw [← not_iff_not]
    refine (hS.sub p).trans ⟨fun hor hand => ?_, fun hnot => ?_⟩
    · rcases hor with hn | ⟨w, hw, hpw⟩
      · exact hand.1 hn
      · exact hand.2 w hw hpw
    · by_contra hno
      rw [not_or] at hno
      exact hnot ⟨hno.1, fun w hw hpw => hno.2 ⟨w, hw, hpw⟩⟩
  refine ⟨wordsFrom t p, fun v => ?_, map_append_sorted (words_sorted _) p, ?_, fun hno => ?_,
    fun hyes => ?_⟩
  · rw [mem_wordsFrom, hS.leafAt]
  · by_cases hnil : t.sub p = nil
    · rw [(h.byPrefix_none hp hnil l).2, wordsFrom, hnil]
      rfl
    · exact (h.byPrefix_some hp hnil he ho).2
  · exact (h.byPrefix_none hp (hpath.mpr hno) l).1
  · exact (h.byPrefix_some hp (fun hnil => hyes (hpath.mp hnil)) he ho).1

theorem trieLeafs_exact_two :
    ∃ root m, trieBuild (Memory.empty Outcomes.allOk) [[0, 1], [0]] = some (root, m) ∧
      (∀ w, trieSearch m root (some (str w)) = some (decide (w ∈ ([[0, 1], [0]] : List Word)))) ∧
      ∀ p : Word, p.length < maxWordLen → ∀ l es ws, Entries l es ws →
        l.outcomes = Outcomes.allOk → ∃ us : List Word,
          (∀ v, v ∈ us ↔ v ∈ ([[0, 1], [0]] : List Word) ∧ p <+: v) ∧ us.Pairwise (· < ·) ∧
          triePrintLeafsByPrefix m root (some (str p)) = some (us.map str) ∧
          ((p ≠ [] ∧ ∀ w ∈ ([[0, 1], [0]] : List Word), ¬ p <+: w) →
            trieGetLeafsByPrefix m root (some (str p)) l = some (-1, l)) ∧
          (¬ (p ≠ [] ∧ ∀ w ∈ ([[0, 1], [0]] : List Word), ¬ p <+: w) →
            ∃ l' es', trieGetLeafsByPrefix m root (some (str p)) l = some (0, l') ∧
              Entries l' (es ++ es') (ws ++ us.map str)) :=
  trieLeafs_exact (Memory.empty Outcomes.allOk) [[0, 1], [0]] (by decide) rfl

/-! ### By a pattern -/

variable {regex : TrieRegex}

theorem matchesFrom_iff (level : Nat) : matchesFrom regex level v = true ↔
    level + v.length = regex.wordLen.toNat ∧ ∀ i c, v[i]? = some c →
      ∃ r, letterRegex regex (level + i) = some r ∧ accepts r c = true := by
  induction v generalizing level with
  | nil =>
    rw [matchesFrom, beq_iff_eq, List.length_nil, Nat.add_zero]
    exact ⟨fun h => ⟨h, fun i c hc => absurd hc.symm (Option.some_ne_none c)⟩, fun h => h.1⟩
  | cons c v ih =>
    rw [matchesFrom, Bool.and_eq_true, Bool.and_eq_true, bne_iff_ne, ih, List.length_cons]
    refine ⟨?_, ?_⟩
    · intro h
      obtain ⟨⟨_, hc⟩, hlen, hrest⟩ := h
      refine ⟨by omega, fun i d hi => ?_⟩
      cases i with
      | zero =>
        rw [List.getElem?_cons_zero, Option.some.injEq] at hi
        subst hi
        rw [Nat.add_zero]
        cases hr : letterRegex regex level with
        | none =>
          rw [hr] at hc
          exact Bool.noConfusion hc
        | some r =>
          rw [hr] at hc
          exact ⟨r, rfl, hc⟩
      | succ i =>
        rw [Nat.add_comm i 1, ← Nat.add_assoc]
        exact hrest i d hi
    · intro h
      obtain ⟨hlen, hall⟩ := h
      refine ⟨⟨by omega, ?_⟩, by omega, fun i d hi => ?_⟩
      · obtain ⟨r, hr, hc⟩ := hall 0 c rfl
        rw [Nat.add_zero] at hr
        rw [hr]
        exact hc
      · obtain ⟨r, hr, hd⟩ := hall (i + 1) d hi
        rw [Nat.add_comm i 1, ← Nat.add_assoc] at hr
        exact ⟨r, hr, hd⟩

/-- A letter fits a position whose mask comes from a list of letters. -/
theorem accepts_iff {r : LetterRegex} {ls : Word} (hopt : r.opt ≠ .other)
    (hmask : trieLetterListToMask (some (str ls)) = some r.mask) (c : Fin childrenNo) :
    accepts r c = true ↔ (c ∈ ls ↔ r.opt = .valInList) := by
  obtain ⟨mask, hr, hiff⟩ := trieLetterListToMask_iff ls
  rw [hmask, Option.some.injEq] at hr
  subst hr
  rw [← hiff c, accepts]
  cases ho : r.opt with
  | other => exact absurd ho hopt
  | valInList => exact (iff_true_right rfl).symm
  | valNotInList =>
    simp only [Bool.not_eq_true', reduceCtorEq, iff_false, Bool.not_eq_true]

/-- **The words of a trie that fit.** -/
theorem Good.byRegex (h : Good m root maxWordLen t) (hv : regex.Valid)
    (hpos : regex.wordLen ≠ 0) (he : Entries l es ws) (ho : l.outcomes = Outcomes.allOk) :
    (∃ l' es', trieGetLeafsByRegex m root (some regex) l = some (0, l') ∧
      Entries l' (es ++ es') (ws ++ (t.words.filter (matchesFrom regex 0)).map str)) ∧
    triePrintLeafsByRegex m root (some regex) =
      some ((t.words.filter (matchesFrom regex 0)).map str) := by
  have hroot : ¬ (root.isNone || decide (regex.wordLen = 0)) = true := by
    rw [Bool.or_eq_true, not_or, decide_eq_true_eq]
    exact ⟨h.isSome, hpos⟩
  have hn := h.holds.deep h.distinct
  have hw : ([] : Word).length ≤ regex.wordLen.toNat := Nat.zero_le _
  constructor
  · have hs : GetInv [] es (fun _ => none, l) ws :=
      ⟨filled_nil _, ho, es, List.prefix_refl es, he⟩
    obtain ⟨⟨word', l'⟩, hr, _, _, es', ⟨es'', rfl⟩, he'⟩ :=
      trieRecursiveGetRegex_spec h.holds h.ne_nil hn hv hw hs
    rw [h.ptr] at hr
    refine ⟨l', es'', ?_, he'⟩
    rw [trieGetLeafsByRegex, if_neg hroot,
      show trieRecursiveGetRegex m regex m.next root 0 _ = _ from hr]
    rfl
  · have hs : PrintInv [] (fun _ => none, []) [] := ⟨filled_nil _, rfl⟩
    obtain ⟨⟨word', out⟩, hr, _, hout⟩ :=
      trieRecursivePrintRegex_spec h.holds h.ne_nil hn hv hw hs
    rw [h.ptr] at hr
    rw [triePrintLeafsByRegex, if_neg hroot,
      show trieRecursivePrintRegex m regex m.next root 0 _ = _ from hr]
    exact congrArg some hout

/-- **Listing by a pattern is exact.**  The mask at each position comes from a list of
letters, and a word fits if its letter is in the list exactly where the option is
`VAL_IN_LIST`. -/
theorem trieRegex_exact (m₀ : Heap) (S : List Word) (hlen : ∀ w ∈ S, w.length < maxWordLen)
    (hok : m₀.outcomes = Outcomes.allOk) :
    ∃ root m, trieBuild m₀ S = some (root, m) ∧
      ∀ (regex : TrieRegex) (letters : Nat → Word), 1 ≤ regex.wordLen.toNat →
        regex.wordLen.toNat < maxWordLen →
        (∀ i r, i < regex.wordLen.toNat → letterRegex regex i = some r → r.opt ≠ .other ∧
          trieLetterListToMask (some (str (letters i))) = some r.mask) →
        ∀ l es ws, Entries l es ws → l.outcomes = Outcomes.allOk → ∃ us : List Word,
          (∀ v, v ∈ us ↔ v ∈ S ∧ v.length = regex.wordLen.toNat ∧
            ∀ i c r, v[i]? = some c → letterRegex regex i = some r →
              (c ∈ letters i ↔ r.opt = .valInList)) ∧
          us.Pairwise (· < ·) ∧
          triePrintLeafsByRegex m root (some regex) = some (us.map str) ∧
          ∃ l' es', trieGetLeafsByRegex m root (some regex) l = some (0, l') ∧
            Entries l' (es ++ es') (ws ++ us.map str) := by
  obtain ⟨root, m, hbuild⟩ := trieBuild_allOk hlen (by decide) hok
  obtain ⟨t, h, hS⟩ := trieBuild_spec hlen (by decide) hbuild
  refine ⟨root, m, hbuild, fun regex letters hpos hlt hmasks l es ws he ho => ?_⟩
  have hv : regex.Valid := ⟨hlt, fun i r hi hr => (hmasks i r hi hr).1⟩
  have hne : regex.wordLen ≠ 0 := by
    intro hz
    rw [hz] at hpos
    exact absurd hpos (by decide)
  obtain ⟨hget, hprint⟩ := h.byRegex hv hne he ho
  refine ⟨t.words.filter (matchesFrom regex 0), fun v => ?_, (words_sorted t).filter _, hprint, hget⟩
  rw [List.mem_filter, mem_words, hS.leafAt, matchesFrom_iff, Nat.zero_add]
  refine and_congr_right (fun _ => and_congr_right (fun hvlen => ?_))
  have hbound : ∀ i c, v[i]? = some c → i < regex.wordLen.toNat := by
    intro i c hc
    rw [← hvlen]
    exact lt_length_of_getElem? hc
  refine ⟨fun hall i c r hc hr => ?_, fun hall i c hc => ?_⟩
  · obtain ⟨r', hr', hacc⟩ := hall i c hc
    rw [Nat.zero_add, hr, Option.some.injEq] at hr'
    subst hr'
    obtain ⟨hopt, hmask⟩ := hmasks i r (hbound i c hc) hr
    exact (accepts_iff hopt hmask c).mp hacc
  · obtain ⟨r, hr, _⟩ := letterRegex_of_lt hv (hbound i c hc)
    obtain ⟨hopt, hmask⟩ := hmasks i r (hbound i c hc) hr
    rw [Nat.zero_add]
    exact ⟨r, hr, (accepts_iff hopt hmask c).mpr (hall i c r hc hr)⟩

theorem trieRegex_exact_two :
    ∃ root m, trieBuild (Memory.empty Outcomes.allOk) [[0, 1], [0]] = some (root, m) ∧
      ∀ (regex : TrieRegex) (letters : Nat → Word), 1 ≤ regex.wordLen.toNat →
        regex.wordLen.toNat < maxWordLen →
        (∀ i r, i < regex.wordLen.toNat → letterRegex regex i = some r → r.opt ≠ .other ∧
          trieLetterListToMask (some (str (letters i))) = some r.mask) →
        ∀ l es ws, Entries l es ws → l.outcomes = Outcomes.allOk → ∃ us : List Word,
          (∀ v, v ∈ us ↔ v ∈ ([[0, 1], [0]] : List Word) ∧ v.length = regex.wordLen.toNat ∧
            ∀ i c r, v[i]? = some c → letterRegex regex i = some r →
              (c ∈ letters i ↔ r.opt = .valInList)) ∧
          us.Pairwise (· < ·) ∧
          triePrintLeafsByRegex m root (some regex) = some (us.map str) ∧
          ∃ l' es', trieGetLeafsByRegex m root (some regex) l = some (0, l') ∧
            Entries l' (es ++ es') (ws ++ us.map str) :=
  trieRegex_exact (Memory.empty Outcomes.allOk) [[0, 1], [0]] (by decide) rfl

end DataStructures.Trie
