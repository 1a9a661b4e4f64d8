import DataStructures.Lib.Loops
import DataStructures.Tree.Trie.Words
import Mathlib.Data.List.Perm.Subperm

/-!
# Listing words

The recursions of the listing functions share one buffer.  `Filled word w`: the buffer
begins with the letters of `w`.  A call at the end of the path `w` keeps this, whatever
it writes behind `w`, and every word it lists is `w` followed by a word of the subtree.

`Entries l es ws`: the list of a caller consists of the entries `es`, with the words
`ws`.  The four recursions append, or print, the same words: all of them
(`trieRecursiveGetLeafs_spec`, `trieRecursivePrintLeafs_spec`) or those that fit a pattern
(`trieRecursiveGetRegex_spec`, `trieRecursivePrintRegex_spec`).
-/

namespace DataStructures.Trie

open Lib Memory Kslist Trie.Tree

variable {m : Heap} {t : Tree} {w : Word} {word : Buffer} {l : WordHeap} {es es₀ : List Nat}
  {ws : List Str} {n : Nat}

/-! ### The buffer -/

/-- The buffer begins with the letters of `w`. -/
def Filled (word : Buffer) (w : Word) : Prop := ∀ i c, w[i]? = some c → word i = some (letter c)

theorem filled_nil (word : Buffer) : Filled word [] :=
  fun _ c h => absurd h.symm (Option.some_ne_none c)

theorem lt_length_of_getElem? {i : Nat} {c : Fin childrenNo} (h : w[i]? = some c) : i < w.length :=
  (List.getElem?_eq_some_iff.mp h).1

/-- Writing behind `w` does not touch it. -/
theorem Filled.putChar (h : Filled word w) {c : UInt8} (hw : w.length < maxWordLen) :
    ∃ word', Trie.putChar word w.length c = some word' ∧ Filled word' w ∧
      word' w.length = some c := by
  refine ⟨_, if_pos hw, fun i d hi => ?_, Function.update_self ..⟩
  have hlt := lt_length_of_getElem? hi
  rw [Function.update_of_ne (Nat.ne_of_lt hlt)]
  exact h i d hi

theorem Filled.snoc (h : Filled word w) {c : Fin childrenNo} (hc : word w.length = some (letter c)) :
    Filled word (w ++ [c]) := by
  intro i d hi
  by_cases hlt : i < w.length
  · rw [List.getElem?_append_left hlt] at hi
    exact h i d hi
  · have hlt' := lt_length_of_getElem? hi
    rw [List.length_append, List.length_singleton] at hlt'
    have he : i = w.length := by omega
    subst he
    rw [List.getElem?_concat_length, Option.some.injEq] at hi
    rw [← hi]
    exact hc

theorem Filled.init {c : Fin childrenNo} (h : Filled word (w ++ [c])) : Filled word w := by
  intro i d hi
  refine h i d ?_
  rw [List.getElem?_append_left (lt_length_of_getElem? hi)]
  exact hi

/-- The shift of an index when the first letter is taken off. -/
theorem shift_filled {i : Nat} {c : Fin childrenNo}
    (h : ∀ j d, (c :: w)[j]? = some d → word (i + j) = some (letter d)) :
    word i = some (letter c) ∧ ∀ j d, w[j]? = some d → word (i + 1 + j) = some (letter d) := by
  refine ⟨h 0 c rfl, fun j d hj => ?_⟩
  rw [Nat.add_assoc, Nat.add_comm 1 j]
  exact h (j + 1) d hj

theorem readStr_eq {i : Nat} (h : ∀ j c, w[j]? = some c → word (i + j) = some (letter c))
    (hend : word (i + w.length) = some 0) (hn : w.length < n) :
    readStr word n i = some (str w) := by
  induction w generalizing i n with
  | nil =>
    obtain ⟨n, rfl⟩ := Nat.exists_eq_succ_of_ne_zero (Nat.ne_of_gt hn)
    rw [List.length_nil, Nat.add_zero] at hend
    rw [readStr, hend]
    rfl
  | cons c w ih =>
    rw [List.length_cons] at hn hend
    obtain ⟨n, rfl⟩ := Nat.exists_eq_succ_of_ne_zero (show n ≠ 0 by omega)
    obtain ⟨hc, hrest⟩ := shift_filled h
    have hr := ih (i := i + 1) (n := n) hrest
      (by rw [Nat.add_assoc, Nat.add_comm 1 w.length]; exact hend) (by omega)
    rw [readStr, hc, Option.bind_eq_bind, Option.bind_some, if_neg (letter_ne_zero c), hr]
    rfl

theorem readPrecision_eq {i : Nat} (h : ∀ j c, w[j]? = some c → word (i + j) = some (letter c)) :
    readPrecision word w.length i = some (str w) := by
  induction w generalizing i with
  | nil => rfl
  | cons c w ih =>
    obtain ⟨hc, hrest⟩ := shift_filled h
    rw [List.length_cons, readPrecision, hc, Option.bind_eq_bind, Option.bind_some,
      if_neg (letter_ne_zero c), ih hrest]
    rfl

/-- **Printing the buffer up to `level`.** -/
theorem Filled.readPrecision (h : Filled word w) :
    Trie.readPrecision word w.length 0 = some (str w) :=
  readPrecision_eq (fun j c hj => by
    rw [Nat.zero_add]
    exact h j c hj)

/-! ### Word entries -/

/-- The list of the caller has the entries `es`, with the words `ws`. -/
structure Entries (l : WordHeap) (es : List Nat) (ws : List Str) : Prop where
  chained : Chained l.links .head (es.map .entry)
  words : es.map l.words = ws.map some
  lt : ∀ e ∈ es, e < l.next

theorem Entries.length_le (h : Entries l es ws) : es.length ≤ l.next := by
  have hn : es.Nodup := List.Nodup.of_map _ (List.nodup_cons.mp h.chained.nodup).2
  have hsub : es ⊆ List.range l.next := fun e he => List.mem_range.mpr (h.lt e he)
  have hle := (hn.subperm hsub).length_le
  rwa [List.length_range] at hle

/-- **A new entry** comes to the end of the list. -/
theorem Entries.push (h : Entries l es ws) (ho : l.outcomes = Outcomes.allOk) (s : Str) :
    ∃ l₁ l₂, trieWordEntryCreate l s = (some l.next, l₁) ∧ pushEntry l₁ l.next = some l₂ ∧
      Entries l₂ (es ++ [l.next]) (ws ++ [s]) ∧ l₂.outcomes = Outcomes.allOk := by
  have hnew : l.next ∉ es := fun he => Nat.lt_irrefl _ (h.lt _ he)
  have hfresh : WordNode.entry l.next ∉ WordNode.head :: es.map .entry := by
    intro hmem
    rcases List.mem_cons.mp hmem with he | hmem
    · exact WordNode.noConfusion he
    · obtain ⟨e, he, heq⟩ := List.mem_map.mp hmem
      rw [WordNode.entry.injEq] at heq
      exact hnew (heq ▸ he)
  have hcreate : trieWordEntryCreate l s = (some l.next,
      { links := Function.update l.links (.entry l.next) (some none)
        words := Function.update l.words l.next (some s)
        next := l.next + 1
        outcomes := Outcomes.allOk }) := by
    rw [trieWordEntryCreate, ho]
    rfl
  have hchained : Chained (Function.update l.links (.entry l.next) (some none)) .head
      (es.map .entry) := by
    refine ⟨h.chained.nodup, h.chained.chain.congr (fun y hy => Function.update_of_ne ?_ _ _)⟩
    rintro rfl
    exact hfresh hy
  have hlen := h.length_le
  have hfuel : (es.map WordNode.entry).length < l.next + 1 + 1 := by
    rw [List.length_map]
    omega
  obtain ⟨links, hr, hc, _⟩ := kslistPushTail_chained hchained hfresh
    (by rw [Function.update_self]; exact Option.some_ne_none _) hfuel
  refine ⟨_, ⟨links, Function.update l.words l.next (some s), l.next + 1, Outcomes.allOk⟩, hcreate,
    ?_, ⟨?_, ?_, fun e he => ?_⟩, rfl⟩
  · rw [pushEntry, hr]
    rfl
  · rw [List.map_append]
    exact hc
  · change (es ++ [l.next]).map (Function.update l.words l.next (some s)) = _
    rw [List.map_append, List.map_append, ← h.words, List.map_singleton, List.map_singleton,
      Function.update_self]
    refine congrArg (· ++ [some s]) (List.map_congr_left (fun e he => ?_))
    refine Function.update_of_ne ?_ _ _
    rintro rfl
    exact hnew he
  · rcases List.mem_append.mp he with he | he
    · exact Nat.lt_succ_of_lt (h.lt e he)
    · rw [List.mem_singleton.mp he]
      exact Nat.lt_succ_self _

/-! ### What the recursions keep -/

/-- The state of the functions that make a list, once it has got to the words `out`; its
first entries are `es₀`. -/
def GetInv (w : Word) (es₀ : List Nat) (s : Buffer × WordHeap) (out : List Str) : Prop :=
  Filled s.1 w ∧ s.2.outcomes = Outcomes.allOk ∧ ∃ es, es₀ <+: es ∧ Entries s.2 es out

/-- The state of the functions that print, once they have printed `out`. -/
def PrintInv (w : Word) (s : Buffer × List Str) (out : List Str) : Prop := Filled s.1 w ∧ s.2 = out

section Loops

variable {σ β : Type} {Inv : σ → List β → Prop} {g : Fin childrenNo → List β}

omit Inv g in
theorem andThen_ok (s : σ) (f : σ → Option (Bool × σ)) : andThen (some (false, s)) f = f s := rfl

/-- **A loop whose rounds add `g i`** adds them one after the other. -/
theorem eachChild_spec {f : Fin childrenNo → σ → Option (Bool × σ)}
    (hf : ∀ i s out, Inv s out → ∃ s', f i s = some (false, s') ∧ Inv s' (out ++ g i)) :
    ∀ (is : List (Fin childrenNo)) (s : σ) (out : List β), Inv s out →
      ∃ s', eachChild f is s = some (false, s') ∧ Inv s' (out ++ is.flatMap g) := by
  intro is
  induction is with
  | nil =>
    intro s out h
    rw [List.flatMap_nil, List.append_nil]
    exact ⟨s, rfl, h⟩
  | cons i is ih =>
    intro s out h
    obtain ⟨s₁, hr, h₁⟩ := hf i s out h
    obtain ⟨s₂, hr₂, h₂⟩ := ih s₁ _ h₁
    rw [List.append_assoc] at h₂
    refine ⟨s₂, ?_, h₂⟩
    rw [eachChild, hr]
    exact hr₂

theorem foldlM_spec {f : σ → Fin childrenNo → Option σ}
    (hf : ∀ i s out, Inv s out → ∃ s', f s i = some s' ∧ Inv s' (out ++ g i))
    (is : List (Fin childrenNo)) (s : σ) (out : List β) (h : Inv s out) :
    ∃ s', is.foldlM f s = some s' ∧ Inv s' (out ++ is.flatMap g) := by
  refine loop_spec (fun done s => Inv s (out ++ done.flatMap g)) ?_ ?_
  · rwa [List.flatMap_nil, List.append_nil]
  · intro done i todo _ s hs
    rw [List.flatMap_append, List.flatMap_singleton, ← List.append_assoc]
    exact hf i s _ hs

end Loops

/-- The word that ends here, as an entry. -/
theorem GetInv.addWord {s : Buffer × WordHeap} {out : List Str} (h : GetInv w es₀ s out)
    (hw : w.length < maxWordLen) : ∃ s', Trie.addWord s.1 w.length s.2 = some (false, s') ∧
      GetInv w es₀ s' (out ++ [str w]) := by
  obtain ⟨hf, ho, es, hes, he⟩ := h
  obtain ⟨word', hr, hf', hend⟩ := hf.putChar (c := 0) hw
  have hread : readStr word' maxWordLen 0 = some (str w) := by
    refine readStr_eq (fun j c hj => ?_) ?_ hw
    · rw [Nat.zero_add]
      exact hf' j c hj
    · rw [Nat.zero_add]
      exact hend
  obtain ⟨l₁, l₂, hcreate, hpush, he', ho'⟩ := he.push ho (str w)
  refine ⟨(word', l₂), ?_, hf', ho', _, hes.trans (List.prefix_append _ _), he'⟩
  rw [Trie.addWord, hr, Option.bind_eq_bind, Option.bind_some, hread, Option.bind_eq_bind,
    Option.bind_some, hcreate]
  simp only [hpush]
  rfl

/-- The word that ends here, as a line. -/
theorem PrintInv.printWord {s : Buffer × List Str} {out : List Str} (h : PrintInv w s out) :
    ∃ s', Trie.printWord s.1 w.length s.2 = some s' ∧ PrintInv w s' (out ++ [str w]) := by
  refine ⟨(s.1, s.2 ++ [str w]), ?_, h.1, congrArg (· ++ [str w]) h.2⟩
  rw [Trie.printWord, h.1.readPrecision]
  rfl

theorem GetInv.leaf {s : Buffer × WordHeap} {out : List Str} (h : GetInv w es₀ s out)
    (hw : w.length < maxWordLen) (leaf : Bool) :
    ∃ s', (if leaf then Trie.addWord s.1 w.length s.2 else some (false, s)) = some (false, s') ∧
      GetInv w es₀ s' (out ++ if leaf then [str w] else []) := by
  cases leaf with
  | false =>
    rw [if_neg Bool.false_ne_true, if_neg Bool.false_ne_true, List.append_nil]
    exact ⟨s, rfl, h⟩
  | true => exact h.addWord hw

theorem PrintInv.leaf {s : Buffer × List Str} {out : List Str} (h : PrintInv w s out)
    (leaf : Bool) :
    ∃ s', (if leaf then Trie.printWord s.1 w.length s.2 else some s) = some s' ∧
      PrintInv w s' (out ++ if leaf then [str w] else []) := by
  cases leaf with
  | false =>
    rw [if_neg Bool.false_ne_true, if_neg Bool.false_ne_true, List.append_nil]
    exact ⟨s, rfl, h⟩
  | true => exact h.printWord

/-- **A call for a child**: its letter comes behind `w`. -/
theorem GetInv.child {s : Buffer × WordHeap} {out us : List Str} (h : GetInv w es₀ s out)
    (hw : w.length < maxWordLen) (c : Fin childrenNo)
    {call : Buffer × WordHeap → Option (Bool × Buffer × WordHeap)}
    (hcall : ∀ s, GetInv (w ++ [c]) es₀ s out →
      ∃ s', call s = some (false, s') ∧ GetInv (w ++ [c]) es₀ s' (out ++ us)) :
    ∃ s', (do
      let word ← putChar s.1 w.length (letter c)
      call (word, s.2)) = some (false, s') ∧ GetInv w es₀ s' (out ++ us) := by
  obtain ⟨word', hr, hf, hend⟩ := h.1.putChar (c := letter c) hw
  obtain ⟨s', hr', hs'⟩ := hcall (word', s.2) ⟨hf.snoc hend, h.2⟩
  refine ⟨s', ?_, hs'.1.init, hs'.2⟩
  rw [hr, Option.bind_eq_bind, Option.bind_some, hr']

theorem PrintInv.child {s : Buffer × List Str} {out us : List Str} (h : PrintInv w s out)
    (hw : w.length < maxWordLen) (c : Fin childrenNo)
    {call : Buffer × List Str → Option (Buffer × List Str)}
    (hcall : ∀ s, PrintInv (w ++ [c]) s out →
      ∃ s', call s = some s' ∧ PrintInv (w ++ [c]) s' (out ++ us)) :
    ∃ s', (do
      let word ← putChar s.1 w.length (letter c)
      call (word, s.2)) = some s' ∧ PrintInv w s' (out ++ us) := by
  obtain ⟨word', hr, hf, hend⟩ := h.1.putChar (c := letter c) hw
  obtain ⟨s', hr', hs'⟩ := hcall (word', s.2) ⟨hf.snoc hend, h.2⟩
  refine ⟨s', ?_, hs'.1.init, hs'.2⟩
  rw [hr, Option.bind_eq_bind, Option.bind_some, hr']

/-! ### All words -/

/-- The words of a child, with the path to it. -/
def childWords (w : Word) (kids : Fin childrenNo → Tree) (i : Fin childrenNo) : List Str :=
  (kids i).words.map (fun v => str (w ++ i :: v))

theorem childWords_eq (w : Word) (kids : Fin childrenNo → Tree) (i : Fin childrenNo) :
    childWords w kids i = (kids i).words.map (fun v => str (w ++ [i] ++ v)) := by
  simp only [childWords, List.append_assoc, List.singleton_append]

theorem childWords_nil {kids : Fin childrenNo → Tree} {i : Fin childrenNo} (hc : kids i = nil) :
    childWords w kids i = [] := by
  rw [childWords, hc]
  rfl

theorem leaf_map_str (w : Word) (leaf : Bool) :
    (if leaf then [[]] else [] : List Word).map (fun v => str (w ++ v)) =
      if leaf then [str w] else [] := by
  cases leaf with
  | false => rfl
  | true => rw [if_pos rfl, if_pos rfl, List.map_singleton, List.append_nil]

theorem words_map_str (w : Word) (a : Nat) (leaf : Bool) (kids : Fin childrenNo → Tree) :
    (node a leaf kids).words.map (fun v => str (w ++ v)) =
      (if leaf then [str w] else []) ++ (List.finRange childrenNo).flatMap (childWords w kids) := by
  rw [words_node, List.map_append, List.map_flatMap]
  refine congrArg₂ (· ++ ·) (leaf_map_str w leaf) (List.flatMap_congr (fun i _ => ?_))
  rw [List.map_map]
  rfl

/-- The depth that is left at the end of the path `w`, for the buffer. -/
theorem deep_child {a : Nat} {leaf : Bool} {kids : Fin childrenNo → Tree}
    (h : (node a leaf kids).Deep (maxWordLen - w.length)) (i : Fin childrenNo) :
    w.length < maxWordLen ∧ (kids i).Deep (maxWordLen - (w ++ [i]).length) := by
  obtain ⟨k, hk⟩ : ∃ k, maxWordLen - w.length = k + 1 := by
    cases hs : maxWordLen - w.length with
    | zero =>
      rw [hs] at h
      exact absurd h id
    | succ k => exact ⟨k, rfl⟩
  rw [hk] at h
  refine ⟨by omega, ?_⟩
  rw [List.length_append, List.length_singleton, show maxWordLen - (w.length + 1) = k by omega]
  exact h i

/-- **`__trie_recursive_get_leafs` appends the words of a subtree.** -/
theorem trieRecursiveGetLeafs_spec (h : Holds m t) (ht : t ≠ nil) (hn : t.Deep n)
    (hd : t.Deep (maxWordLen - w.length)) {s : Buffer × WordHeap} {out : List Str}
    (hs : GetInv w es₀ s out) :
    ∃ s', trieRecursiveGetLeafs m n t.ptr w.length s = some (false, s') ∧
      GetInv w es₀ s' (out ++ t.words.map (fun v => str (w ++ v))) := by
  induction t generalizing n w s out with
  | nil => exact absurd rfl ht
  | node a leaf kids ih =>
    cases n with
    | zero => exact absurd hn id
    | succ n =>
      obtain ⟨s₁, hr₁, hs₁⟩ := hs.leaf (deep_child hd 0).1 leaf
      rw [words_map_str, ← List.append_assoc, ptr_node, trieRecursiveGetLeafs, h.load,
        Option.bind_eq_bind, Option.bind_some, hr₁, andThen_ok]
      refine eachChild_spec (fun i s out hs => ?_) _ _ _ hs₁
      by_cases hc : kids i = nil
      · have hnone : ¬ ((kids i).ptr).isSome = true := fun hs => isSome_ptr.mp hs hc
        rw [childWords_nil hc, List.append_nil]
        exact ⟨s, if_neg hnone, hs⟩
      · obtain ⟨hlt, hdeep⟩ := deep_child hd i
        rw [childWords_eq, if_pos (isSome_ptr.mpr hc)]
        refine hs.child hlt i (fun s hs => ?_)
        have hr := ih i (h.2 i) hc (hn i) hdeep hs
        rwa [List.length_append, List.length_singleton] at hr

/-- **`__trie_recursive_print_leafs` prints the same words.** -/
theorem trieRecursivePrintLeafs_spec (h : Holds m t) (ht : t ≠ nil) (hn : t.Deep n)
    (hd : t.Deep (maxWordLen - w.length)) {s : Buffer × List Str} {out : List Str}
    (hs : PrintInv w s out) :
    ∃ s', trieRecursivePrintLeafs m n t.ptr w.length s = some s' ∧
      PrintInv w s' (out ++ t.words.map (fun v => str (w ++ v))) := by
  induction t generalizing n w s out with
  | nil => exact absurd rfl ht
  | node a leaf kids ih =>
    cases n with
    | zero => exact absurd hn id
    | succ n =>
      obtain ⟨s₁, hr₁, hs₁⟩ := hs.leaf leaf
      rw [words_map_str, ← List.append_assoc, ptr_node, trieRecursivePrintLeafs, h.load,
        Option.bind_eq_bind, Option.bind_some, hr₁, Option.bind_eq_bind, Option.bind_some]
      refine foldlM_spec (fun i s out hs => ?_) _ _ _ hs₁
      by_cases hc : kids i = nil
      · have hnone : ¬ ((kids i).ptr).isSome = true := fun hs => isSome_ptr.mp hs hc
        rw [childWords_nil hc, List.append_nil]
        exact ⟨s, if_neg hnone, hs⟩
      · obtain ⟨hlt, hdeep⟩ := deep_child hd i
        rw [childWords_eq, if_pos (isSome_ptr.mpr hc)]
        refine hs.child hlt i (fun s hs => ?_)
        have hr := ih i (h.2 i) hc (hn i) hdeep hs
        rwa [List.length_append, List.length_singleton] at hr

/-! ### The words that fit a pattern -/

variable {regex : TrieRegex}

/-- The words of a child that fit the pattern, if its letter does, with the path to it. -/
def childMatches (w : Word) (regex : TrieRegex) (r : LetterRegex) (kids : Fin childrenNo → Tree)
    (i : Fin childrenNo) : List Str :=
  if accepts r i then
    ((kids i).words.filter (matchesFrom regex (w.length + 1))).map (fun v => str (w ++ [i] ++ v))
  else []

theorem matches_map_str (w : Word) (a : Nat) (leaf : Bool) (kids : Fin childrenNo → Tree)
    (h : w.length ≠ regex.wordLen.toNat) {r : LetterRegex}
    (hr : letterRegex regex w.length = some r) :
    ((node a leaf kids).words.filter (matchesFrom regex w.length)).map (fun v => str (w ++ v)) =
      (List.finRange childrenNo).flatMap (childMatches w regex r kids) := by
  rw [words_filter_step h hr, List.map_flatMap]
  refine List.flatMap_congr (fun i _ => ?_)
  rw [childMatches]
  split
  · rw [List.map_map]
    simp only [Function.comp_def, List.append_assoc, List.singleton_append]
  · rfl

theorem childMatches_nil {r : LetterRegex} {kids : Fin childrenNo → Tree} {i : Fin childrenNo}
    (hc : kids i = nil) : childMatches w regex r kids i = [] := by
  rw [childMatches, hc]
  split
  · rfl
  · rfl

/-- All positions of a pattern have an option of the enumeration. -/
def TrieRegex.Valid (regex : TrieRegex) : Prop :=
  regex.wordLen.toNat < maxWordLen ∧
    ∀ i r, i < regex.wordLen.toNat → letterRegex regex i = some r → r.opt ≠ .other

theorem letterRegex_of_lt (hv : regex.Valid) {level : Nat} (h : level < regex.wordLen.toNat) :
    ∃ r, letterRegex regex level = some r ∧ r.opt ≠ .other := by
  have hr : letterRegex regex level = some (regex.wordList ⟨level, Nat.lt_trans h hv.1⟩) :=
    dif_pos (Nat.lt_trans h hv.1)
  exact ⟨_, hr, hv.2 level _ h hr⟩

/-- A turn of the loop over the children goes on exactly with a letter that fits. -/
theorem letterTurn {B : Type} {r : LetterRegex} (hopt : r.opt ≠ .other) {i : Fin childrenNo}
    {call skip : Option B} :
    (match r.opt with
      | .valInList => if maskHas r.mask i then call else skip
      | .valNotInList => if !maskHas r.mask i then call else skip
      | .other => none) = if accepts r i then call else skip := by
  rw [accepts]
  cases ho : r.opt with
  | other => exact absurd ho hopt
  | valInList => rfl
  | valNotInList => rfl

/-- **`__trie_recursive_get_regex` appends the words of a subtree that fit.** -/
theorem trieRecursiveGetRegex_spec (h : Holds m t) (ht : t ≠ nil) (hn : t.Deep n)
    (hv : regex.Valid) (hw : w.length ≤ regex.wordLen.toNat) {s : Buffer × WordHeap} {out : List Str}
    (hs : GetInv w es₀ s out) :
    ∃ s', trieRecursiveGetRegex m regex n t.ptr w.length s = some (false, s') ∧
      GetInv w es₀ s'
        (out ++ (t.words.filter (matchesFrom regex w.length)).map (fun v => str (w ++ v))) := by
  induction t generalizing n w s out with
  | nil => exact absurd rfl ht
  | node a leaf kids ih =>
    cases n with
    | zero => exact absurd hn id
    | succ n =>
      by_cases hlevel : w.length = regex.wordLen.toNat
      · rw [ptr_node, trieRecursiveGetRegex, if_pos hlevel, h.load, Option.bind_eq_bind,
          Option.bind_some, words_filter_end hlevel, leaf_map_str]
        refine hs.leaf ?_ leaf
        rw [hlevel]
        exact hv.1
      · have hlt : w.length < regex.wordLen.toNat := by omega
        obtain ⟨r, hr, hopt⟩ := letterRegex_of_lt hv hlt
        rw [matches_map_str w a leaf kids hlevel hr, ptr_node, trieRecursiveGetRegex,
          if_neg hlevel, h.load, Option.bind_eq_bind, Option.bind_some]
        refine eachChild_spec (fun i s out hs => ?_) _ _ _ hs
        by_cases hc : kids i = nil
        · rw [childMatches_nil hc, List.append_nil]
          exact ⟨s, if_pos (isNone_ptr.mpr hc), hs⟩
        · have hsome : ¬ ((kids i).ptr).isNone = true := not_isNone_ptr.mpr hc
          have hcall : ∃ s', (do
              let word ← putChar s.1 w.length (letter i)
              trieRecursiveGetRegex m regex n (kids i).ptr (w.length + 1) (word, s.2)) =
                some (false, s') ∧ GetInv w es₀ s' (out ++
                  ((kids i).words.filter (matchesFrom regex (w.length + 1))).map
                    (fun v => str (w ++ [i] ++ v))) := by
            refine hs.child (Nat.lt_trans hlt hv.1) i (fun s hs => ?_)
            have hle : (w ++ [i]).length ≤ regex.wordLen.toNat := by
              rw [List.length_append, List.length_singleton]
              exact hlt
            have hr := ih i (h.2 i) hc (hn i) hle hs
            rwa [List.length_append, List.length_singleton] at hr
          have hskip : ∃ s', some (false, s) = some (false, s') ∧ GetInv w es₀ s' (out ++ []) :=
            ⟨s, rfl, by rwa [List.append_nil]⟩
          rw [childMatches, if_neg hsome, hr, Option.bind_eq_bind, Option.bind_some]
          refine Exists.imp (fun s' => And.imp_left (letterTurn hopt).trans) ?_
          split
          · exact hcall
          · exact hskip

/-- **`__trie_recursive_print_regex` prints the same words.** -/
theorem trieRecursivePrintRegex_spec (h : Holds m t) (ht : t ≠ nil) (hn : t.Deep n)
    (hv : regex.Valid) (hw : w.length ≤ regex.wordLen.toNat) {s : Buffer × List Str} {out : List Str}
    (hs : PrintInv w s out) :
    ∃ s', trieRecursivePrintRegex m regex n t.ptr w.length s = some s' ∧
      PrintInv w s'
        (out ++ (t.words.filter (matchesFrom regex w.length)).map (fun v => str (w ++ v))) := by
  induction t generalizing n w s out with
  | nil => exact absurd rfl ht
  | node a leaf kids ih =>
    cases n with
    | zero => exact absurd hn id
    | succ n =>
      by_cases hlevel : w.length = regex.wordLen.toNat
      · rw [ptr_node, trieRecursivePrintRegex, if_pos hlevel, h.load, Option.bind_eq_bind,
          Option.bind_some, words_filter_end hlevel, leaf_map_str]
        exact hs.leaf leaf
      · have hlt : w.length < regex.wordLen.toNat := by omega
        obtain ⟨r, hr, hopt⟩ := letterRegex_of_lt hv hlt
        rw [matches_map_str w a leaf kids hlevel hr, ptr_node, trieRecursivePrintRegex,
          if_neg hlevel, h.load, Option.bind_eq_bind, Option.bind_some]
        refine foldlM_spec (fun i s out hs => ?_) _ _ _ hs
        by_cases hc : kids i = nil
        · rw [childMatches_nil hc, List.append_nil]
          exact ⟨s, if_pos (isNone_ptr.mpr hc), hs⟩
        · have hsome : ¬ ((kids i).ptr).isNone = true := not_isNone_ptr.mpr hc
          have hcall : ∃ s', (do
              let word ← putChar s.1 w.length (letter i)
              trieRecursivePrintRegex m regex n (kids i).ptr (w.length + 1) (word, s.2)) =
                some s' ∧ PrintInv w s' (out ++
                  ((kids i).words.filter (matchesFrom regex (w.length + 1))).map
                    (fun v => str (w ++ [i] ++ v))) := by
            refine hs.child (Nat.lt_trans hlt hv.1) i (fun s hs => ?_)
            have hle : (w ++ [i]).length ≤ regex.wordLen.toNat := by
              rw [List.length_append, List.length_singleton]
              exact hlt
            have hr := ih i (h.2 i) hc (hn i) hle hs
            rwa [List.length_append, List.length_singleton] at hr
          have hskip : ∃ s', some s = some s' ∧ PrintInv w s' (out ++ []) :=
            ⟨s, rfl, by rwa [List.append_nil]⟩
          rw [childMatches, if_neg hsome, hr, Option.bind_eq_bind, Option.bind_some]
          refine Exists.imp (fun s' => And.imp_left (letterTurn hopt).trans) ?_
          split
          · exact hcall
          · exact hskip

end DataStructures.Trie
