import DataStructures.Tree.Trie.Shape
import DataStructures.Lib.Bitmap

/-!
# The words of a trie

`t.words` lists the words a trie stores, the mark of a node before those of its
children: they are the marked paths (`mem_words`), in alphabetical order and each once
(`words_sorted`).

`matchesFrom regex level w`: the word fits the pattern from position `level` on.
`words_filter_end` and `words_filter_step` follow the recursion of the pattern
functions.  The mask of a position is that of a list of letters
(`trieLetterListToMask_iff`).
-/

namespace DataStructures.Trie

open Lib Trie.Tree

variable {t : Tree} {v w : Word} {a n : Nat} {l : Bool} {kids : Fin childrenNo → Tree}

/-! ### Listing -/

namespace Tree

/-- The words of a trie. -/
def words : Tree → List Word
  | nil => []
  | node _ l kids => (if l then [[]] else []) ++
      (List.finRange childrenNo).flatMap (fun i => (kids i).words.map (i :: ·))

theorem words_node (a : Nat) (l : Bool) (kids : Fin childrenNo → Tree) :
    (node a l kids).words = (if l then [[]] else []) ++
      (List.finRange childrenNo).flatMap (fun i => (kids i).words.map (i :: ·)) := rfl

theorem cons_mem_words {c : Fin childrenNo} :
    c :: w ∈ (node a l kids).words ↔ w ∈ (kids c).words := by
  have hno : c :: w ∉ (if l then [[]] else [] : List Word) := by
    cases l <;> simp
  rw [words_node, List.mem_append, or_iff_right hno, List.mem_flatMap]
  refine ⟨fun h => ?_, fun h => ⟨c, List.mem_finRange c, List.mem_map_of_mem h⟩⟩
  obtain ⟨i, _, hi⟩ := h
  obtain ⟨u, hu, he⟩ := List.mem_map.mp hi
  rw [List.cons.injEq] at he
  obtain ⟨rfl, rfl⟩ := he
  exact hu

/-- **The words are the marked paths.** -/
theorem mem_words : w ∈ t.words ↔ t.leafAt w = true := by
  induction w generalizing t with
  | nil =>
    cases t with
    | nil => exact iff_of_false List.not_mem_nil Bool.noConfusion
    | node a l kids =>
      have hno : [] ∉ (List.finRange childrenNo).flatMap
          (fun i => (kids i).words.map (i :: ·)) := by
        rw [List.mem_flatMap]
        rintro ⟨i, _, hi⟩
        obtain ⟨u, _, he⟩ := List.mem_map.mp hi
        exact List.cons_ne_nil _ _ he
      rw [words_node, List.mem_append, or_iff_left hno, leafAt, sub_nil, leaf_node]
      cases l <;> simp
  | cons c w ih =>
    cases t with
    | nil =>
      rw [leafAt, nil_sub]
      exact iff_of_false List.not_mem_nil Bool.noConfusion
    | node a l kids => exact cons_mem_words.trans ih

/-- **The words stand in alphabetical order**, each once. -/
theorem words_sorted (t : Tree) : t.words.Pairwise (· < ·) := by
  induction t with
  | nil => exact List.Pairwise.nil
  | node a l kids ih =>
    rw [words_node, List.pairwise_append, List.pairwise_flatMap]
    refine ⟨by cases l <;> simp, ⟨fun i _ => ?_, ?_⟩, fun u hu v hv => ?_⟩
    · rw [List.pairwise_map]
      exact (ih i).imp (fun huv => List.cons_lt_cons_iff.mpr (Or.inr ⟨rfl, huv⟩))
    · refine (List.pairwise_lt_finRange childrenNo).imp (fun hij u hu v hv => ?_)
      obtain ⟨u, _, rfl⟩ := List.mem_map.mp hu
      obtain ⟨v, _, rfl⟩ := List.mem_map.mp hv
      exact List.cons_lt_cons_iff.mpr (Or.inl hij)
    · -- the word that ends here is first
      have hu : u = [] := by
        cases l with
        | false => exact absurd hu List.not_mem_nil
        | true => exact List.mem_singleton.mp hu
      obtain ⟨i, _, hi⟩ := List.mem_flatMap.mp hv
      obtain ⟨v, _, rfl⟩ := List.mem_map.mp hi
      rw [hu]
      exact List.nil_lt_cons i v

end Tree

/-- A common beginning does not change the order. -/
theorem map_append_sorted {ws : List Word} (h : ws.Pairwise (· < ·)) (p : Word) :
    (ws.map (p ++ ·)).Pairwise (· < ·) := by
  rw [List.pairwise_map]
  exact h.imp List.append_left_lt

/-! ### Patterns -/

/-- The letter fits the position of a pattern. -/
def accepts (r : LetterRegex) (c : Fin childrenNo) : Bool :=
  match r.opt with
  | .valInList => maskHas r.mask c
  | .valNotInList => !maskHas r.mask c
  | .other => false

/-- The word fits the positions of a pattern from `level` on, and ends with it. -/
def matchesFrom (regex : TrieRegex) : Nat → Word → Bool
  | level, [] => level == regex.wordLen.toNat
  | level, c :: w => level != regex.wordLen.toNat &&
      (match letterRegex regex level with
        | none => false
        | some r => accepts r c) && matchesFrom regex (level + 1) w

variable {regex : TrieRegex} {level : Nat}

/-- At the end of the pattern only the word that ends here fits. -/
theorem words_filter_end (h : level = regex.wordLen.toNat) :
    (node a l kids).words.filter (matchesFrom regex level) = if l then [[]] else [] := by
  have hcons : ∀ (c : Fin childrenNo) (w : Word), matchesFrom regex level (c :: w) = false := by
    intro c w
    rw [matchesFrom, h, bne_self_eq_false, Bool.false_and, Bool.false_and]
  have hnil : matchesFrom regex level [] = true := by
    rw [matchesFrom, h, beq_self_eq_true]
  have hrest : ((List.finRange childrenNo).flatMap
      (fun i => (kids i).words.map (i :: ·))).filter (matchesFrom regex level) = [] := by
    rw [List.filter_eq_nil_iff]
    intro u hu
    obtain ⟨i, _, hi⟩ := List.mem_flatMap.mp hu
    obtain ⟨u, _, rfl⟩ := List.mem_map.mp hi
    rw [hcons]
    exact Bool.false_ne_true
  rw [words_node, List.filter_append, hrest, List.append_nil]
  cases l with
  | false => rfl
  | true => rw [if_pos rfl, List.filter_cons_of_pos hnil, List.filter_nil]

/-- **One position of the pattern.** -/
theorem words_filter_step (h : level ≠ regex.wordLen.toNat) {r : LetterRegex}
    (hr : letterRegex regex level = some r) :
    (node a l kids).words.filter (matchesFrom regex level) =
      (List.finRange childrenNo).flatMap (fun i =>
        if accepts r i then ((kids i).words.filter (matchesFrom regex (level + 1))).map (i :: ·)
        else []) := by
  have hnil : ¬ matchesFrom regex level [] = true := by
    rw [matchesFrom, beq_iff_eq]
    exact h
  have hcons : ∀ (c : Fin childrenNo) (w : Word),
      matchesFrom regex level (c :: w) = (accepts r c && matchesFrom regex (level + 1) w) := by
    intro c w
    rw [matchesFrom, hr, bne_iff_ne.mpr h, Bool.true_and]
  have hend : (if l then [[]] else [] : List Word).filter (matchesFrom regex level) = [] := by
    cases l with
    | false => rfl
    | true => rw [if_pos rfl, List.filter_cons_of_neg hnil, List.filter_nil]
  rw [words_node, List.filter_append, hend, List.nil_append, List.filter_flatMap]
  refine List.flatMap_congr (fun i _ => ?_)
  rw [List.filter_map]
  have hfun : matchesFrom regex level ∘ (i :: ·) =
      fun w => accepts r i && matchesFrom regex (level + 1) w := by
    funext w
    exact hcons i w
  rw [hfun]
  cases accepts r i with
  | false => simp only [Bool.false_and, List.filter_false, List.map_nil, Bool.false_eq_true, if_false]
  | true => simp only [Bool.true_and, if_true]

/-! ### Masks -/

theorem maskHas_eq (mask : BitVec 32) (i : Fin childrenNo) : maskHas mask i = mask.getLsbD i := by
  have hi : i.val < 32 := Nat.lt_trans i.isLt (by decide)
  exact mask_test mask hi

theorem letter_toNat (c : Fin childrenNo) : (letter c).toNat = c.val + 97 := by
  revert c
  decide

theorem trieLetterListToMaskFrom_iff (ls : Word) (mask : BitVec 32) :
    ∃ mask', trieLetterListToMaskFrom (str ls) mask = some mask' ∧
      ∀ i, maskHas mask' i = true ↔ maskHas mask i = true ∨ i ∈ ls := by
  induction ls generalizing mask with
  | nil => exact ⟨mask, rfl, fun i => (or_iff_left List.not_mem_nil).symm⟩
  | cons c ls ih =>
    have hval : (letter c).toNat - 97 = c.val := by
      rw [letter_toNat, Nat.add_sub_cancel]
    have hc : 97 ≤ (letter c).toNat ∧ (letter c).toNat - 97 < 31 := by
      refine ⟨(letter_range c).1, ?_⟩
      rw [hval]
      exact Nat.lt_trans c.isLt (by decide)
    obtain ⟨mask', hr, hmask⟩ := ih (mask ||| (1#32 <<< c.val))
    refine ⟨mask', ?_, fun i => ?_⟩
    · rw [str_cons, trieLetterListToMaskFrom, if_pos hc, hval]
      exact hr
    · have hi : i.val < 32 := Nat.lt_trans i.isLt (by decide)
      rw [hmask i, List.mem_cons, maskHas_eq, maskHas_eq, mask_set mask hi, Bool.or_eq_true,
        decide_eq_true_eq, or_assoc]
      refine or_congr_right (or_congr_left ?_)
      exact ⟨fun he => (Fin.ext he).symm, fun he => congrArg Fin.val he.symm⟩

/-- **The mask of a list of letters** has their bits. -/
theorem trieLetterListToMask_iff (ls : Word) : ∃ mask,
    trieLetterListToMask (some (str ls)) = some mask ∧ ∀ i, maskHas mask i = true ↔ i ∈ ls := by
  obtain ⟨mask, hr, hmask⟩ := trieLetterListToMaskFrom_iff ls 0
  refine ⟨mask, hr, fun i => (hmask i).trans (or_iff_right ?_)⟩
  have hzero : (0 : BitVec 32).getLsbD i.val = false := BitVec.getLsbD_zero
  rw [maskHas_eq, hzero]
  exact Bool.false_ne_true

end DataStructures.Trie
