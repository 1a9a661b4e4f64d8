import DataStructures.Tree.Trie.Build

/-!
# Deleting one word

A node belongs to all words that go through it, and `trie_delete` cuts the path of a
word below the deepest node with another child.  What goes with it are the words that
end, or go on, below that node.

`trieDelete_only_iff`: **which words can be deleted without harm to others**, for every
set of words and every overlap.
-/

namespace DataStructures.Trie

open Lib Memory Trie.Tree

variable {m m' m₀ : Heap} {t : Tree} {w : Word} {S : List Word} {root : Ptr} {n k : Nat}

/-- **Deleting `w` deletes `w` only**: the call returns, `w` is not found any more, and
every other word is found if it was before. -/
def DeletesOnly (m : Heap) (root : Ptr) (w : Word) : Prop :=
  ∃ r m', trieDelete m root (some (str w)) = some (r, m') ∧
    trieSearch m' root (some (str w)) = some false ∧
    ∀ v, v ≠ w → trieSearch m' root (some (str v)) = trieSearch m root (some (str v))

/-- A word of `S` goes on with another letter after the first `k` ones of `w`. -/
def Parts (S : List Word) (w : Word) (k : Nat) : Prop :=
  ∃ c, w[k]? = some c ∧ ∃ j, j ≠ c ∧ ∃ v ∈ S, w.take k ++ [j] <+: v

/-- Either `w` is no beginning of a word of `S` and not empty, or it is one of them,
another word parts from it, and from there on it is alone. -/
def Deletable (S : List Word) (w : Word) : Prop :=
  (w ≠ [] ∧ ∀ v ∈ S, ¬ w <+: v) ∨
  (w ∈ S ∧ ∃ k, Parts S w k ∧ ∀ v ∈ S, w.take (k + 1) <+: v → v = w)

theorem Stores.branches_iff (h : Stores t S) : Branches t w k ↔ Parts S w k := by
  have hne : ∀ j, w.take k ++ [j] ≠ [] := fun j => List.concat_ne_nil j _
  refine ⟨?_, ?_⟩
  · intro hb
    obtain ⟨c, hc, j, hj, hsub⟩ := hb
    exact ⟨c, hc, j, hj, (h.sub_of_ne (hne j)).mp hsub⟩
  · intro hp
    obtain ⟨c, hc, j, hj, hv⟩ := hp
    exact ⟨c, hc, j, hj, (h.sub_of_ne (hne j)).mpr hv⟩

/-- Where nothing branches off, the subtree at the first letter is destroyed but stays
linked, and searching the word follows the dangling pointer. -/
theorem Good.search_dangling (h : Good m root n t) {c : Fin childrenNo} {v : Word}
    (hw : t.sub (c :: v) ≠ nil) (hm : Destroyed (t.sub [c]).Has m m') :
    trieSearch m' root (some (str (c :: v))) = none := by
  rw [← h.ptr]
  have hsome : ¬ t.ptr.isNone = true := not_isNone_ptr.mpr h.ne_nil
  obtain ⟨hholds, hdist, hne, _, _⟩ := h
  cases t with
  | nil => exact absurd rfl hne
  | node a l kids =>
    rw [node_sub_cons, sub_nil] at hm
    have hroot : m'.load (some a) = some ⟨fun i => (kids i).ptr, l⟩ :=
      (hm.kept a (hdist.1 c).2).trans hholds.1
    have hc : kids c ≠ nil := kid_ne_nil hw
    have hcs : ¬ ((kids c).ptr).isNone = true := not_isNone_ptr.mpr hc
    rw [trieSearch, if_neg hsome, str_cons, trieSearchFrom, ptr_node, hroot, childIdx_letter,
      Option.bind_eq_bind, Option.bind_some, Option.bind_eq_bind, Option.bind_some, if_neg hcs]
    change trieSearchFrom m' (kids c).ptr (str v) = none
    cases hk : kids c with
    | nil => exact absurd hk hc
    | node b l' kids' =>
      have hgone : m'.load (some b) = none := hm.gone b (by rw [hk]; exact Or.inl rfl)
      cases v with
      | nil =>
        rw [str_nil, trieSearchFrom, ptr_node, hgone]
        rfl
      | cons d v =>
        rw [str_cons, trieSearchFrom, ptr_node, hgone]
        rfl

/-- **A cut below a branching** is harmless if the word is alone there. -/
theorem Good.deletesOnly_cut (h : Good m root n t) (hS : Stores t S)
    {r : Ptr} (hr : trieDelete m root (some (str w)) = some (r, m'))
    (hb : Branches t w k) (hcut : Holds m' (t.cut (w.take (k + 1)))) :
    DeletesOnly m root w ↔ ∀ v ∈ S, w.take (k + 1) <+: v → v = w := by
  have htake := take_succ_ne_nil hb
  have hgood := h.cut htake hcut
  have hsearch : ∀ v, trieSearch m' root (some (str v)) =
      some (decide (v ∈ S ∧ ¬ w.take (k + 1) <+: v)) := by
    intro v
    have he := trieSearch_eq hcut hgood.ne_nil v
    rw [hgood.ptr] at he
    rw [he, Option.some.injEq, Bool.eq_iff_iff, decide_eq_true_eq, (sub_cut t _ v).2, hS.leafAt]
  refine ⟨fun hdel v hv hpre => ?_, fun hall => ?_⟩
  · by_contra hne
    obtain ⟨r', m'', hr', _, hothers⟩ := hdel
    rw [hr, Option.some.injEq, Prod.mk.injEq] at hr'
    obtain ⟨_, rfl⟩ := hr'
    have he := hothers v hne
    rw [hsearch, h.search hS, Option.some.injEq, decide_eq_true hv, decide_eq_true_eq] at he
    exact he.2 hpre
  · refine ⟨r, m', hr, ?_, fun v hv => ?_⟩
    · rw [hsearch, Option.some.injEq, decide_eq_false_iff_not, not_and, not_not]
      exact fun _ => List.take_prefix _ _
    · rw [hsearch, h.search hS, Option.some.injEq, decide_eq_decide]
      exact ⟨fun hand => hand.1, fun hvS => ⟨hvS, fun hpre => hv (hall v hvS hpre)⟩⟩

/-- **`trie_delete` deletes the word it is given, and no other one, exactly for the
`Deletable` words.**  The trie is built from any words of fewer than `MAX_WORD_LEN`
letters, none of them empty, and the word to delete is any word, of the trie or not. -/
theorem trieDelete_only_iff (m₀ : Heap) (S : List Word) (hne : ∀ w ∈ S, w ≠ [])
    (hlen : ∀ w ∈ S, w.length < maxWordLen) (root : Ptr) (m : Heap)
    (hbuild : trieBuild m₀ S = some (root, m)) (w : Word) :
    (∀ v, trieSearch m root (some (str v)) = some (decide (v ∈ S))) ∧
    (DeletesOnly m root w ↔ Deletable S w) := by
  obtain ⟨t, h, hS⟩ := trieBuild_spec hlen (by decide) hbuild
  have hdeep : t.Deep 256 := h.deep.mono (by decide)
  refine ⟨h.search hS, ?_⟩
  rcases trieDelete_spec h.holds h.distinct h.ne_nil hdeep w with
    ⟨hw, hr⟩ | ⟨rfl, hr⟩ | ⟨c, v, m', rfl, hw, hno, hr, hm'⟩ | ⟨k, m', hw, hk, hmax, hr, hcut, _⟩
  · -- no path: nothing happens
    rw [h.ptr] at hr
    have hwn : w ≠ [] := by
      rintro rfl
      exact h.ne_nil ((sub_nil t).symm.trans hw)
    have hnot : ∀ v ∈ S, ¬ w <+: v := fun v hv hpre => (hS.sub_of_ne hwn).mpr ⟨v, hv, hpre⟩ hw
    refine iff_of_true ⟨none, m, hr, ?_, fun _ _ => rfl⟩ (Or.inl ⟨hwn, hnot⟩)
    rw [h.search hS, Option.some.injEq, decide_eq_false_iff_not]
    exact fun hmem => hnot w hmem (List.prefix_refl w)
  · -- the empty word
    rw [h.ptr] at hr
    refine iff_of_false (fun hdel => ?_) (fun hD => ?_)
    · obtain ⟨r, m', hr', _⟩ := hdel
      rw [hr] at hr'
      exact absurd hr'.symm (Option.some_ne_none _)
    · rcases hD with ⟨hn, _⟩ | ⟨hmem, _⟩
      · exact hn rfl
      · exact hne [] hmem rfl
  · -- no branching: the subtree stays linked
    rw [h.ptr] at hr
    refine iff_of_false (fun hdel => ?_) (fun hD => ?_)
    · obtain ⟨r, m'', hr', hsearch, _⟩ := hdel
      rw [hr, Option.some.injEq, Prod.mk.injEq] at hr'
      obtain ⟨_, rfl⟩ := hr'
      rw [h.search_dangling hw hm'] at hsearch
      exact absurd hsearch.symm (Option.some_ne_none _)
    · rcases hD with ⟨hn, hnot⟩ | ⟨_, k, hk, _⟩
      · obtain ⟨u, hu, hpre⟩ := (hS.sub_of_ne hn).mp hw
        exact hnot u hu hpre
      · exact hno k (hS.branches_iff.mpr hk)
  · -- a cut below the deepest branching
    rw [h.ptr] at hr
    rw [h.deletesOnly_cut hS hr hk hcut]
    have hwn : w ≠ [] := by
      rintro rfl
      obtain ⟨c, hc, _⟩ := hk
      exact absurd hc.symm (Option.some_ne_none c)
    obtain ⟨u, hu, hwu⟩ := (hS.sub_of_ne hwn).mp hw
    refine ⟨fun hall => Or.inr ?_, fun hD v hv hpre => ?_⟩
    · have huw := hall u hu ((List.take_prefix _ _).trans hwu)
      subst huw
      exact ⟨hu, k, hS.branches_iff.mp hk, hall⟩
    · rcases hD with ⟨_, hnot⟩ | ⟨_, k', hk', hall⟩
      · exact absurd hwu (hnot u hu)
      · have hle : k' ≤ k := by
          by_contra hlt
          exact hmax k' (by omega) (hS.branches_iff.mpr hk')
        refine hall v hv (List.IsPrefix.trans ?_ hpre)
        exact List.take_prefix_take_left (by omega)

/-- The trie of `"a"`, `"ab"` and `"b"`. -/
@[irreducible] def exampleTrie : Heap :=
  match trieBuild (Memory.empty Outcomes.allOk) [[0], [0, 1], [1]] with
  | some (_, m) => m
  | none => Memory.empty Outcomes.allOk

set_option maxRecDepth 20000 in
theorem exampleTrie_eq :
    trieBuild (Memory.empty Outcomes.allOk) [[0], [0, 1], [1]] = some (some 0, exampleTrie) := by
  unfold exampleTrie
  rfl

theorem trieDelete_only_iff_exampleTrie :
    (∀ v, trieSearch exampleTrie (some 0) (some (str v)) =
      some (decide (v ∈ ([[0], [0, 1], [1]] : List Word)))) ∧
    (DeletesOnly exampleTrie (some 0) [1] ↔ Deletable [[0], [0, 1], [1]] [1]) :=
  trieDelete_only_iff (Memory.empty Outcomes.allOk) [[0], [0, 1], [1]] (by decide) (by decide)
    (some 0) exampleTrie exampleTrie_eq [1]

set_option maxRecDepth 20000 in
/-- **Deleting `"ab"` from `"a"`, `"ab"` and `"b"` deletes `"a"` too**: the deepest node
with another child is the root. -/
theorem trieDelete_takes_another :
    trieBuild (Memory.empty Outcomes.allOk) [[0], [0, 1], [1]] = some (some 0, exampleTrie) ∧
    trieSearch exampleTrie (some 0) (some (str [0])) = some true ∧
    ∃ m', trieDelete exampleTrie (some 0) (some (str [0, 1])) = some (some 0, m') ∧
      trieSearch m' (some 0) (some (str [0])) = some false ∧
      ¬ DeletesOnly exampleTrie (some 0) [0, 1] := by
  have hbefore : trieSearch exampleTrie (some 0) (some (str [0])) = some true := by
    unfold exampleTrie
    rfl
  have hafter : (trieDelete exampleTrie (some 0) (some (str [0, 1]))).bind (fun r =>
      (trieSearch r.2 (some 0) (some (str [0]))).map (r.1, ·)) = some (some 0, false) := by
    unfold exampleTrie
    rfl
  obtain ⟨⟨r, m'⟩, hr, hlost⟩ := Option.bind_eq_some_iff.mp hafter
  obtain ⟨b, hsearch, he⟩ := Option.map_eq_some_iff.mp hlost
  rw [Prod.mk.injEq] at he
  obtain ⟨hroot, rfl⟩ := he
  have hr' : trieDelete exampleTrie (some 0) (some (str [0, 1])) = some (some 0, m') := by
    rw [hr, ← hroot]
  refine ⟨exampleTrie_eq, hbefore, m', hr', hsearch, fun hdel => ?_⟩
  obtain ⟨r'', m'', hr'', _, hothers⟩ := hdel
  rw [hr', Option.some.injEq, Prod.mk.injEq] at hr''
  obtain ⟨_, rfl⟩ := hr''
  have he := hothers [0] (by decide)
  rw [hbefore] at he
  exact absurd (hsearch.symm.trans he) (by decide)

end DataStructures.Trie
