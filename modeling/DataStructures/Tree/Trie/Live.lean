import DataStructures.Tree.Trie.Exact
import DataStructures.Tree.Trie.Overlap

/-!
# Nodes that have been destroyed

`Reach m₀ deletes root m`: a run of insertions and deletions that starts with a new root
has got to the memory `m`; `deletes` says which deletions it may make.  What the
allocations answer is up to `m₀`.

`trie_noneDestroyed`: **as long as `trie_delete` finds a branching on the paths it
deletes, no destroyed node is reachable.**  Where it finds none, it destroys the subtree at
the first letter and leaves the link to it in the root.
-/

namespace DataStructures.Trie

open Lib Memory Trie.Tree

variable {m m' m₀ : Heap} {t : Tree} {w : Word} {root : Ptr} {a n : Nat}

/-! ### Reachable nodes -/

/-- The nodes a pointer leads to. -/
inductive Reachable (m : Heap) (root : Ptr) : Nat → Prop
  | root {a : Nat} : root = some a → Reachable m root a
  | child {a b : Nat} {node : TrieNode} {i : Fin childrenNo} : Reachable m root b →
      m.cells b = some node → node.children i = some a → Reachable m root a

/-- **Every reachable node has been created and not destroyed.** -/
def AllReachableLive (m : Heap) (root : Ptr) : Prop :=
  ∀ a, Reachable m root a → ∃ node, m.cells a = some node

/-- Every node of a tree is at the end of a path. -/
theorem Tree.Has.exists_sub (h : t.Has a) : ∃ w leaf kids, t.sub w = node a leaf kids := by
  induction t with
  | nil => exact absurd h id
  | node b leaf kids ih =>
    rcases h with rfl | ⟨i, hi⟩
    · exact ⟨[], leaf, kids, sub_nil _⟩
    · obtain ⟨w, leaf', kids', hw⟩ := ih i hi
      exact ⟨i :: w, leaf', kids', hw⟩

theorem Good.has_of_reachable (h : Good m root n t) (ha : Reachable m root a) : t.Has a := by
  induction ha with
  | root hr =>
    rw [← h.ptr] at hr
    cases t with
    | nil => exact absurd hr.symm (Option.some_ne_none _)
    | node b leaf kids => exact Or.inl (Option.some.inj hr).symm
  | @child a b cell i _ hb hc ih =>
    obtain ⟨w, leaf, kids, hw⟩ := ih.exists_sub
    have hsub := h.holds.sub w
    rw [hw] at hsub
    have hcell := hb.symm.trans hsub.1
    rw [Option.some.injEq] at hcell
    subst hcell
    have hkid : (kids i).ptr = some a := hc
    refine Has.of_sub (w := w) ?_
    rw [hw]
    refine Or.inr ⟨i, ?_⟩
    cases hk : kids i with
    | nil =>
      rw [hk] at hkid
      exact absurd hkid.symm (Option.some_ne_none a)
    | node c leaf' kids' =>
      rw [hk, ptr_node, Option.some.injEq] at hkid
      exact Or.inl hkid.symm

theorem Good.allReachableLive (h : Good m root n t) : AllReachableLive m root :=
  fun _ ha => h.holds.live (h.has_of_reachable ha)

/-- A subtree that has been destroyed but stays linked. -/
theorem Good.not_allReachableLive (h : Good m root n t) {c : Fin childrenNo} {v : Word}
    (hw : t.sub (c :: v) ≠ nil) (hm : Destroyed (t.sub [c]).Has m m') :
    ¬ AllReachableLive m' root := by
  obtain ⟨hholds, hdist, hne, hptr, _⟩ := h
  cases t with
  | nil => exact absurd rfl hne
  | node a leaf kids =>
    rw [node_sub_cons, sub_nil] at hm
    have hroot : m'.cells a = some ⟨fun i => (kids i).ptr, leaf⟩ :=
      (hm.kept a (hdist.1 c).2).trans hholds.1
    cases hk : kids c with
    | nil =>
      rw [node_sub_cons, hk, nil_sub] at hw
      exact absurd rfl hw
    | node b leaf' kids' =>
      have hlink : (TrieNode.mk (fun i => (kids i).ptr) leaf).children c = some b := by
        change (kids c).ptr = some b
        rw [hk, ptr_node]
      intro hall
      obtain ⟨cell, hb⟩ := hall b (.child (.root hptr.symm) hroot hlink)
      rw [hm.gone b (by rw [hk]; exact Or.inl rfl)] at hb
      exact absurd hb.symm (Option.some_ne_none cell)

/-! ### Runs -/

/-- The memories a run of insertions and deletions reaches. -/
inductive Reach (m₀ : Heap) (deletes : Heap → Ptr → Word → Prop) : Ptr → Heap → Prop
  | start {a : Nat} {m : Heap} : trieNodeCreate m₀ = (some a, m) → Reach m₀ deletes (some a) m
  | insert {root r : Ptr} {m m' : Heap} {w : Word} : Reach m₀ deletes root m →
      w.length < maxWordLen → trieInsert m root (some (str w)) = some (r, m') →
      Reach m₀ deletes root m'
  | delete {root r : Ptr} {m m' : Heap} {w : Word} : Reach m₀ deletes root m →
      w.length < maxWordLen → deletes m root w → trieDelete m root (some (str w)) = some (r, m') →
      Reach m₀ deletes root m'

/-- The word leads out of the trie, or a node on its path has another child. -/
def branchesOff (m : Heap) : Ptr → Word → Prop
  | _, [] => False
  | p, c :: w => ∃ node, m.load p = some node ∧
      (node.children c = none ∨ (∃ j, j ≠ c ∧ node.children j ≠ none) ∨
        branchesOff m (node.children c) w)

theorem Tree.branchesOff_iff (h : Holds m t) (ht : t ≠ nil) :
    branchesOff m t.ptr w ↔ t.sub w = nil ∨ ∃ k, Branches t w k := by
  induction w generalizing t with
  | nil =>
    refine iff_of_false id ?_
    rintro (hn | ⟨k, c, hc, _⟩)
    · exact ht ((sub_nil t).symm.trans hn)
    · exact Option.some_ne_none c hc.symm
  | cons c w ih =>
    cases t with
    | nil => exact absurd rfl ht
    | node a leaf kids =>
      have hb : branchesOff m (node a leaf kids).ptr (c :: w) ↔ kids c = nil ∨
          (∃ j, j ≠ c ∧ kids j ≠ nil) ∨ branchesOff m (kids c).ptr w := by
        rw [branchesOff, ptr_node, h.load]
        refine ⟨?_, ?_⟩
        · intro hex
          obtain ⟨cell, hcell, hor⟩ := hex
          rw [Option.some.injEq] at hcell
          subst hcell
          simpa only [Ne, ptr_eq_none] using hor
        · intro hor
          refine ⟨_, rfl, ?_⟩
          simpa only [Ne, ptr_eq_none] using hor
      rw [hb, node_sub_cons]
      by_cases hc : kids c = nil
      · rw [hc, nil_sub]
        exact iff_of_true (Or.inl rfl) (Or.inl rfl)
      · rw [or_iff_right hc, ih (h.2 c) hc]
        refine ⟨?_, ?_⟩
        · intro hor
          rcases hor with hj | hn | ⟨k, hk⟩
          · exact Or.inr ⟨0, branches_zero.mpr hj⟩
          · exact Or.inl hn
          · exact Or.inr ⟨k + 1, branches_succ.mpr hk⟩
        · intro hor
          rcases hor with hn | ⟨k, hk⟩
          · exact Or.inr (Or.inl hn)
          · cases k with
            | zero => exact Or.inl (branches_zero.mp hk)
            | succ k => exact Or.inr (Or.inr ⟨k, branches_succ.mp hk⟩)

/-- **One deletion.** -/
theorem Good.delete (h : Good m root maxWordLen t) (w : Word) :
    (branchesOff m root w ∧ ∃ r m' t', trieDelete m root (some (str w)) = some (r, m') ∧
      Good m' root maxWordLen t') ∨
    (¬ branchesOff m root w ∧ ∀ r m', trieDelete m root (some (str w)) = some (r, m') →
      ¬ AllReachableLive m' root) := by
  have hdeep : t.Deep 256 := h.deep.mono (by decide)
  have hoff := branchesOff_iff (w := w) h.holds h.ne_nil
  rw [h.ptr] at hoff
  rcases trieDelete_spec h.holds h.distinct h.ne_nil hdeep w with
    ⟨hw, hr⟩ | ⟨rfl, hr⟩ | ⟨c, v, m', rfl, hw, hno, hr, hm'⟩ | ⟨k, m', _, hk, _, hr, hcut, _⟩
  · rw [h.ptr] at hr
    exact Or.inl ⟨hoff.mpr (Or.inl hw), none, m, t, hr, h⟩
  · rw [h.ptr] at hr
    refine Or.inr ⟨id, fun r m' hr' => ?_⟩
    rw [hr] at hr'
    exact absurd hr'.symm (Option.some_ne_none _)
  · rw [h.ptr] at hr
    refine Or.inr ⟨fun hb => ?_, fun r m'' hr' => ?_⟩
    · rcases hoff.mp hb with hn | ⟨k, hk⟩
      · exact hw hn
      · exact hno k hk
    · rw [hr, Option.some.injEq, Prod.mk.injEq] at hr'
      obtain ⟨_, rfl⟩ := hr'
      exact h.not_allReachableLive hw hm'
  · rw [h.ptr] at hr
    exact Or.inl ⟨hoff.mpr (Or.inr ⟨k, hk⟩), root, m', _, hr, h.cut (take_succ_ne_nil hk) hcut⟩

/-- **Every memory of such a run holds a trie.** -/
theorem Reach.good (h : Reach m₀ branchesOff root m) : ∃ t, Good m root maxWordLen t := by
  induction h with
  | @start a m hr =>
    cases hout : m₀.outcomes.first with
    | false =>
      rw [trieNodeCreate, malloc_fail hout, Prod.mk.injEq] at hr
      exact absurd hr.1.symm (Option.some_ne_none a)
    | true =>
      obtain ⟨m₁, hr₁, h₁, _⟩ := trieNodeCreate_good m₀ (show 0 < maxWordLen by decide) hout
      rw [hr₁, Prod.mk.injEq] at hr
      obtain ⟨ha, rfl⟩ := hr
      rw [← ha]
      exact ⟨_, h₁⟩
  | insert _ hw hr ih =>
    obtain ⟨t, h⟩ := ih
    obtain ⟨ok, m₁, t', hr₁, h₁, _⟩ := h.insert hw
    rw [hr, Option.some.injEq, Prod.mk.injEq] at hr₁
    obtain ⟨_, rfl⟩ := hr₁
    exact ⟨t', h₁⟩
  | delete _ hw hd hr ih =>
    obtain ⟨t, h⟩ := ih
    rcases h.delete _ with ⟨_, r, m₁, t', hr₁, h₁⟩ | ⟨hno, _⟩
    · rw [hr, Option.some.injEq, Prod.mk.injEq] at hr₁
      obtain ⟨_, rfl⟩ := hr₁
      exact ⟨t', h₁⟩
    · exact absurd hd hno

/-- Building a trie is a run. -/
theorem Reach.insertAll {deletes : Heap → Ptr → Word → Prop} {ws : List Word}
    (h : Reach m₀ deletes root m) (hws : ∀ w ∈ ws, w.length < maxWordLen)
    (hr : Trie.insertAll m root ws = some m') : Reach m₀ deletes root m' := by
  induction ws generalizing m with
  | nil =>
    rw [Trie.insertAll, Option.some.injEq] at hr
    rw [← hr]
    exact h
  | cons w ws ih =>
    rw [Trie.insertAll, Option.bind_eq_bind] at hr
    obtain ⟨⟨r, m₁⟩, hr₁, hrest⟩ := Option.bind_eq_some_iff.mp hr
    change (if r.isNone then none else Trie.insertAll m₁ root ws) = some m' at hrest
    by_cases hnone : r.isNone = true
    · rw [if_pos hnone] at hrest
      exact absurd hrest.symm (Option.some_ne_none m')
    · rw [if_neg hnone] at hrest
      exact ih (h.insert (hws w List.mem_cons_self) hr₁)
        (fun u hu => hws u (List.mem_cons_of_mem _ hu)) hrest

theorem Reach.build {deletes : Heap → Ptr → Word → Prop} {ws : List Word}
    (hws : ∀ w ∈ ws, w.length < maxWordLen) (hr : trieBuild m₀ ws = some (root, m)) :
    Reach m₀ deletes root m := by
  cases hc : trieNodeCreate m₀ with
  | mk p m₁ =>
    cases p with
    | none =>
      rw [trieBuild, hc] at hr
      exact absurd hr.symm (Option.some_ne_none _)
    | some a =>
      rw [trieBuild, hc] at hr
      simp only [Option.isNone_some, Bool.false_eq_true, if_false, Option.bind_eq_bind] at hr
      obtain ⟨m', hall, he⟩ := Option.bind_eq_some_iff.mp hr
      rw [Option.pure_def, Option.some.injEq, Prod.mk.injEq] at he
      obtain ⟨rfl, rfl⟩ := he
      exact (Reach.start hc).insertAll hws hall

/-- **No destroyed node stays reachable, as long as every deletion finds a branching on
its path.**  Every call from such a state is defined, so it touches live nodes only; a
deletion keeps this exactly if it finds a branching; and `trie_node_destroy` destroys
every node, none of them twice. -/
theorem trie_noneDestroyed (m₀ : Heap) (root : Ptr) (m : Heap) (h : Reach m₀ branchesOff root m) :
    AllReachableLive m root ∧
    (∀ w : Word, w.length < maxWordLen →
      (∃ b, trieSearch m root (some (str w)) = some b) ∧
      (∃ r m', trieInsert m root (some (str w)) = some (r, m') ∧ AllReachableLive m' root) ∧
      ((∃ r m', trieDelete m root (some (str w)) = some (r, m') ∧ AllReachableLive m' root) ↔
        branchesOff m root w) ∧
      (∃ out, triePrintLeafsByPrefix m root (some (str w)) = some out) ∧
      ∀ l es ws, Entries l es ws → l.outcomes = Outcomes.allOk →
        ∃ r, trieGetLeafsByPrefix m root (some (str w)) l = some r) ∧
    (∀ regex : TrieRegex, regex.Valid → regex.wordLen ≠ 0 →
      (∃ out, triePrintLeafsByRegex m root (some regex) = some out) ∧
      ∀ l es ws, Entries l es ws → l.outcomes = Outcomes.allOk →
        ∃ r, trieGetLeafsByRegex m root (some regex) l = some r) ∧
    ∃ m', trieNodeDestroy m.next m root = some m' ∧ ∀ a, Reachable m root a → m'.cells a = none := by
  obtain ⟨t, h⟩ := h.good
  have hempty : Entries ⟨fun _ => some none, fun _ => none, 0, Outcomes.allOk⟩ [] [] :=
    ⟨⟨List.nodup_singleton _, rfl⟩, rfl, fun e he => absurd he List.not_mem_nil⟩
  refine ⟨h.allReachableLive, fun w hw => ⟨?_, ?_, ?_, ?_, fun l es ws he ho => ?_⟩,
    fun regex hv hne => ⟨?_, fun l es ws he ho => ?_⟩, ?_⟩
  · rw [← h.ptr]
    exact ⟨_, trieSearch_eq h.holds h.ne_nil w⟩
  · obtain ⟨ok, m', t', hr, h', _⟩ := h.insert hw
    exact ⟨_, m', hr, h'.allReachableLive⟩
  · rcases h.delete w with ⟨hb, r, m', t', hr, h'⟩ | ⟨hno, hbad⟩
    · exact iff_of_true ⟨r, m', hr, h'.allReachableLive⟩ hb
    · refine iff_of_false (fun hex => ?_) hno
      obtain ⟨r, m', hr, hlive⟩ := hex
      exact hbad r m' hr hlive
  · by_cases hnil : t.sub w = nil
    · exact ⟨_, (h.byPrefix_none hw hnil ⟨fun _ => none, fun _ => none, 0, Outcomes.allOk⟩).2⟩
    · exact ⟨_, (h.byPrefix_some hw hnil hempty rfl).2⟩
  · by_cases hnil : t.sub w = nil
    · exact ⟨_, (h.byPrefix_none hw hnil l).1⟩
    · obtain ⟨⟨l', es', hr, _⟩, _⟩ := h.byPrefix_some hw hnil he ho
      exact ⟨_, hr⟩
  · exact ⟨_, (h.byRegex hv hne hempty rfl).2⟩
  · obtain ⟨⟨l', es', hr, _⟩, _⟩ := h.byRegex hv hne he ho
    exact ⟨_, hr⟩
  · obtain ⟨m', hr, hm'⟩ := trieNodeDestroy_spec h.holds h.distinct h.ne_nil
      (h.holds.deep h.distinct)
    rw [h.ptr] at hr
    exact ⟨m', hr, fun a ha => hm'.gone a (h.has_of_reachable ha)⟩

theorem trie_noneDestroyed_exampleTrie :
    AllReachableLive exampleTrie (some 0) ∧
    (∀ w : Word, w.length < maxWordLen →
      (∃ b, trieSearch exampleTrie (some 0) (some (str w)) = some b) ∧
      (∃ r m', trieInsert exampleTrie (some 0) (some (str w)) = some (r, m') ∧
        AllReachableLive m' (some 0)) ∧
      ((∃ r m', trieDelete exampleTrie (some 0) (some (str w)) = some (r, m') ∧
        AllReachableLive m' (some 0)) ↔ branchesOff exampleTrie (some 0) w) ∧
      (∃ out, triePrintLeafsByPrefix exampleTrie (some 0) (some (str w)) = some out) ∧
      ∀ l es ws, Entries l es ws → l.outcomes = Outcomes.allOk →
        ∃ r, trieGetLeafsByPrefix exampleTrie (some 0) (some (str w)) l = some r) ∧
    (∀ regex : TrieRegex, regex.Valid → regex.wordLen ≠ 0 →
      (∃ out, triePrintLeafsByRegex exampleTrie (some 0) (some regex) = some out) ∧
      ∀ l es ws, Entries l es ws → l.outcomes = Outcomes.allOk →
        ∃ r, trieGetLeafsByRegex exampleTrie (some 0) (some regex) l = some r) ∧
    ∃ m', trieNodeDestroy exampleTrie.next exampleTrie (some 0) = some m' ∧
      ∀ a, Reachable exampleTrie (some 0) a → m'.cells a = none :=
  trie_noneDestroyed (Memory.empty Outcomes.allOk) (some 0) exampleTrie
    (Reach.build (by decide) exampleTrie_eq)

/-- The memory after a word has been inserted into an empty trie and deleted. -/
@[irreducible] def exampleDangling (w : Word) : Heap :=
  (((trieBuild (Memory.empty Outcomes.allOk) [w]).bind
    (fun r => trieDelete r.2 r.1 (some (str w)))).map Prod.snd).getD
      (Memory.empty Outcomes.allOk)

set_option maxRecDepth 20000 in
/-- **After the only word has been deleted its node is still linked**: searching it and
destroying the trie use it. -/
theorem trie_usesDestroyed :
    Reach (Memory.empty Outcomes.allOk) (fun _ _ _ => True) (some 0) (exampleDangling [0]) ∧
    ¬ AllReachableLive (exampleDangling [0]) (some 0) ∧
    trieSearch (exampleDangling [0]) (some 0) (some (str [0])) = none ∧
    trieNodeDestroy (exampleDangling [0]).next (exampleDangling [0]) (some 0) = none := by
  have hrun : (trieBuild (Memory.empty Outcomes.allOk) [[0]]).bind
      (fun r => trieDelete r.2 r.1 (some (str [0]))) = some (some 0, exampleDangling [0]) := by
    unfold exampleDangling
    rfl
  have hroot : (exampleDangling [0]).cells 0 =
      some ⟨Function.update (fun _ => none) 0 (some 1), false⟩ := by
    unfold exampleDangling
    rfl
  have hgone : (exampleDangling [0]).cells 1 = none := by
    unfold exampleDangling
    rfl
  refine ⟨?_, fun hall => ?_, ?_, ?_⟩
  · obtain ⟨⟨root, m⟩, hbuild, hdelete⟩ := Option.bind_eq_some_iff.mp hrun
    have hfirst : (trieBuild (Memory.empty Outcomes.allOk) [[0]]).map Prod.fst = some (some 0) := rfl
    rw [hbuild, Option.map_some, Option.some.injEq] at hfirst
    have hroot' : root = some 0 := hfirst
    subst hroot'
    exact .delete (.build (by decide) hbuild) (by decide) trivial hdelete
  · obtain ⟨node, hnode⟩ := hall 1 (.child (i := 0) (.root rfl) hroot rfl)
    rw [hgone] at hnode
    exact absurd hnode.symm (Option.some_ne_none node)
  · unfold exampleDangling
    rfl
  · unfold exampleDangling
    rfl

end DataStructures.Trie
