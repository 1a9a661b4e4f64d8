import DataStructures.Tree.Binary.Cousins

/-!
# Cousins

`AreCousins t x y`: at one depth of `t` there are two different nodes of which one has a child with
the value `x` and the other a child with the value `y`.

When the values are distinct a value is on one level only and has one parent.  So the level at
which `binary_tree_cousins` stops is the one with the parents, if the data are cousins, and the
parents it has recorded there are the right ones: `binaryTreeCousins_exact`.
-/

namespace DataStructures.BinaryTree

open Lib Queue LevelOrder

variable {h : Heap} {root : Ptr} {t s s' : Tree} {i j k : Nat} {x y v : Int}

/-! ### Values on levels -/

/-- The value at the root, if there is one. -/
def rootValues : Tree → List Int
  | .nil => []
  | .node n _ _ => [n.2]

/-- The values of the children of the root. -/
def childValues : Tree → List Int
  | .nil => []
  | .node _ l r => rootValues l ++ rootValues r

/-- **At one depth two different nodes**, one with a child `x` and one with a child `y`. -/
def AreCousins (t : Tree) (x y : Int) : Prop :=
  ∃ k, ∃ s ∈ level (subtrees t) k, ∃ s' ∈ level (subtrees t) k,
    s ≠ s' ∧ x ∈ childValues s ∧ y ∈ childValues s'

/-- The values on a level are those of the children of the level above. -/
theorem flatMap_childValues (t : Tree) (k : Nat) :
    (level (subtrees t) k).flatMap childValues = (level t (k + 1)).map Prod.snd := by
  induction t generalizing k with
  | nil => rfl
  | node n l r ihl ihr =>
    cases k with
    | zero =>
      have hroot : ∀ s : Tree, rootValues s = (level s 0).map Prod.snd := by
        intro s
        cases s with
        | nil => rfl
        | node m a b => rfl
      rw [subtrees, level, List.flatMap_singleton, childValues, level, List.map_append, hroot, hroot]
    | succ k => rw [subtrees, level, List.flatMap_append, ihl, ihr, level, List.map_append]

/-- In lists put side by side without a repetition each value comes from one of them. -/
theorem eq_of_nodup_flatMap {A B : Type} {f : A → List B} {l : List A} (hd : (l.flatMap f).Nodup)
    {a b : A} (ha : a ∈ l) (hb : b ∈ l) {v : B} (hva : v ∈ f a) (hvb : v ∈ f b) : a = b := by
  induction l with
  | nil => cases ha
  | cons c l ih =>
    rw [List.flatMap_cons] at hd
    have hdisj := List.disjoint_of_nodup_append hd
    rcases List.mem_cons.mp ha with rfl | hal
    · rcases List.mem_cons.mp hb with rfl | hbl
      · rfl
      · exact absurd (List.mem_flatMap.mpr ⟨b, hbl, hvb⟩) (hdisj hva)
    · rcases List.mem_cons.mp hb with rfl | hbl
      · exact absurd (List.mem_flatMap.mpr ⟨a, hal, hva⟩) (hdisj hvb)
      · exact ih hd.of_append_right hal hbl

/-- **A value is on one level only**, if the values are distinct. -/
theorem level_unique (hd : (values t).Nodup) (hi : v ∈ (level t i).map Prod.snd)
    (hj : v ∈ (level t j).map Prod.snd) : i = j := by
  have hlt : ∀ {k}, v ∈ (level t k).map Prod.snd → k ∈ List.range t.height := by
    intro k hk
    rw [List.mem_range]
    by_contra hle
    rw [level_eq_nil (Nat.le_of_not_lt hle)] at hk
    exact List.not_mem_nil hk
  rw [values, levelOrder, List.map_flatMap] at hd
  exact eq_of_nodup_flatMap hd (hlt hi) (hlt hj) hi hj

/-- **A value has one parent**, if the values are distinct. -/
theorem parent_unique (hd : (values t).Nodup) (hs : s ∈ level (subtrees t) k)
    (hs' : s' ∈ level (subtrees t) k) (hv : v ∈ childValues s) (hv' : v ∈ childValues s') : s = s' := by
  have hlevel : ((level t (k + 1)).map Prod.snd).Nodup := by
    by_cases hk : k + 1 < t.height
    · rw [values, levelOrder, List.map_flatMap, List.nodup_flatMap] at hd
      exact hd.1 (k + 1) (List.mem_range.mpr hk)
    · rw [level_eq_nil (Nat.le_of_not_lt hk)]
      exact List.nodup_nil
  rw [← flatMap_childValues] at hlevel
  exact eq_of_nodup_flatMap hlevel hs hs' hv hv'

/-! ### Parents in memory -/

theorem level_stored (t : Tree) (k : Nat) : level (stored t) k = (level (subtrees t) k).map nodeOf := by
  rw [stored_eq, level_map]

/-- The children of a node in memory have the values of the children in the tree. -/
theorem stores_children_iff (hn : ∀ n ∈ levelOrder (stored t), h.cells n.1 = some n.2)
    (hs : s ∈ level (subtrees t) k) :
    (∃ c ∈ children (nodeOf s).2, Stores h x c) ↔ x ∈ childValues s := by
  have hroot : ∀ u : Tree, (∀ n ∈ levelOrder (stored u), h.cells n.1 = some n.2) →
      ((∃ c ∈ (ptr u).toList, Stores h x c) ↔ x ∈ rootValues u) := by
    intro u hu
    cases u with
    | nil => exact ⟨nofun, nofun⟩
    | node m a b =>
      have hm : h.cells m.1 = some ⟨m.2, ptr a, ptr b⟩ := (forall_mem_levelOrder_node.mp hu).1
      simp [ptr, rootValues, Stores, hm, eq_comm]
  cases s with
  | nil => exact absurd rfl (ne_nil_of_mem_subtrees (mem_of_level hs))
  | node m l r =>
    have hsub := fun n hm => hn n (mem_stored_of_subtree (mem_of_level hs) hm)
    obtain ⟨-, hl, hr⟩ := forall_mem_levelOrder_node.mp hsub
    rw [childValues, List.mem_append, ← hroot l hl, ← hroot r hr, nodeOf, children]
    simp only [List.mem_append, or_and_right, exists_or]

/-- **What is recorded on a level**: the parent of the value, or none if it has none there. -/
theorem records_level_iff (hn : ∀ n ∈ levelOrder (stored t), h.cells n.1 = some n.2) {p : Ptr}
    (hr : Records h x (level (stored t) k) none p) :
    (p = none ∧ ∀ s ∈ level (subtrees t) k, x ∉ childValues s) ∨
      ∃ s ∈ level (subtrees t) k, p = ptr s ∧ x ∈ childValues s := by
  rw [level_stored] at hr
  rcases hr with ⟨hp, hno⟩ | ⟨n, hm, hp, hc⟩
  · refine Or.inl ⟨hp, fun s hs hx => ?_⟩
    obtain ⟨c, hc, hst⟩ := (stores_children_iff hn hs).mpr hx
    exact hno _ (List.mem_map_of_mem hs) c hc hst
  · obtain ⟨s, hs, rfl⟩ := List.mem_map.mp hm
    refine Or.inr ⟨s, hs, hp.trans ?_, (stores_children_iff hn hs).mp hc⟩
    cases s with
    | nil => exact absurd rfl (ne_nil_of_mem_subtrees (mem_of_level hs))
    | node m l r => rfl

/-- Nodes with one address are one node. -/
theorem eq_of_ptr (hnd : ((levelOrder t).map Prod.fst).Nodup) (hs : s ∈ level (subtrees t) k)
    (hs' : s' ∈ level (subtrees t) k) (hp : ptr s = ptr s') : s = s' := by
  have haddr : (levelOrder (subtrees t)).map (fun u => (nodeOf u).1) = (levelOrder t).map Prod.fst := by
    rw [← addrs_stored, levelOrder_stored, List.map_map]
    rfl
  have hm := mem_of_level hs
  have hm' := mem_of_level hs'
  refine List.inj_on_of_nodup_map (haddr ▸ hnd) hm hm' ?_
  cases s with
  | nil => exact absurd rfl (ne_nil_of_mem_subtrees hm)
  | node m a b =>
    cases s' with
    | nil => exact absurd rfl (ne_nil_of_mem_subtrees hm')
    | node m' a' b' => exact Option.some.inj hp

/-! ### The answer -/

/-- **Where the loop stops it has found the parents of cousins**, if there are any. -/
theorem records_iff (hs : Spans h root t) (hd : (values t).Nodup) {p q : Ptr}
    (hall : ∀ i, 0 < i → i ≤ j → Absent x y (level (stored t) i))
    (hx : Records h x (level (stored t) j) none p) (hy : Records h y (level (stored t) j) none q)
    (hnext : Absent x y (level (stored t) (j + 1)) → level (stored t) j = []) :
    (p ≠ none ∧ q ≠ none ∧ p ≠ q) ↔ AreCousins t x y := by
  have hx' := records_level_iff hs.node hx
  have hy' := records_level_iff hs.node hy
  have hval : ∀ {k : Nat} {u : Tree} {z : Int}, u ∈ level (subtrees t) k → z ∈ childValues u →
      z ∈ (level t (k + 1)).map Prod.snd := fun {k u z} hu hz => by
    rw [← flatMap_childValues]
    exact List.mem_flatMap.mpr ⟨u, hu, hz⟩
  constructor
  · rintro ⟨hp, hq, hne⟩
    obtain ⟨s, hsl, hps, hsx⟩ := hx'.resolve_left (fun hno => hp hno.1)
    obtain ⟨s', hsl', hqs, hsy⟩ := hy'.resolve_left (fun hno => hq hno.1)
    refine ⟨j, s, hsl, s', hsl', fun he => hne ?_, hsx, hsy⟩
    rw [hps, hqs, he]
  · rintro ⟨k, s, hsl, s', hsl', hne, hsx, hsy⟩
    have hxk := hval hsl hsx
    have hyk := hval hsl' hsy
    -- the parents are on the level the loop has stopped at
    obtain rfl : j = k := by
      rcases Nat.lt_trichotomy j k with hlt | rfl | hlt
      · have habs : Absent x y (level (stored t) (j + 1)) := by
          rw [absent_stored_iff]
          intro n hn
          have hmem := List.mem_map_of_mem (f := Prod.snd) hn
          constructor
          · rintro rfl
            have := level_unique hd hmem hxk
            omega
          · rintro rfl
            have := level_unique hd hmem hyk
            omega
        have hnil := level_eq_nil_of_le (hnext habs) hlt.le
        rw [level_stored, List.map_eq_nil_iff] at hnil
        rw [hnil] at hsl
        cases hsl
      · rfl
      · have habs := absent_stored_iff (k + 1) |>.mp (hall (k + 1) (Nat.succ_pos k) hlt)
        obtain ⟨n, hn, hnx⟩ := List.mem_map.mp hxk
        exact absurd hnx (habs n hn).1
    obtain ⟨u, hu, hpu, hux⟩ := hx'.resolve_left (fun hno => hno.2 s hsl hsx)
    obtain ⟨u', hu', hqu, huy⟩ := hy'.resolve_left (fun hno => hno.2 s' hsl' hsy)
    have hptr : ∀ {w : Tree}, w ∈ level (subtrees t) j → ptr w ≠ none := fun hw hnone =>
      ne_nil_of_mem_subtrees (mem_of_level hw) (ptr_eq_none.mp hnone)
    refine ⟨hpu ▸ hptr hu, hqu ▸ hptr hu', fun he => hne ?_⟩
    have huu' : u = u' := eq_of_ptr hs.nodup hu hu' (by rw [← hpu, ← hqu, he])
    rw [parent_unique hd hsl hu hsx hux, parent_unique hd hsl' hu' hsy huy, huu']

/-- **`binary_tree_cousins` is exact.**  On a tree of at most 128 nodes with distinct values, if no
allocation is refused, it returns true exactly when both data occur in the tree, at one depth, as
children of two different parents.  If one is refused, an assertion fails; NULL is answered
without an allocation. -/
theorem binaryTreeCousins_exact (hs : Spans h root t) (hsize : t.numNodes ≤ 128)
    (hd : (values t).Nodup) (x y : Int) :
    (t = .nil ∨ h.outcomes.Succeed 2 → ∃ b, binaryTreeCousins h root x y = some b ∧
      (b = true ↔ AreCousins t x y)) ∧
    (t ≠ .nil → ¬ h.outcomes.Succeed 2 → binaryTreeCousins h root x y = none) := by
  rcases eq_or_ne t .nil with rfl | ht
  · rw [hs.root]
    refine ⟨fun _ => ⟨false, rfl, nofun, ?_⟩, fun hne => absurd rfl hne⟩
    rintro ⟨k, s, hs, -⟩
    cases hs
  · refine ⟨fun ho => ?_, fun _ ho => ?_⟩
    · obtain ⟨h', queue, rounds, hs', hq, hr, hrun⟩ := cousins_start hs ht (ho.resolve_left ht) x y
      have hl : Linked h'.cells children (stored t) := linked_stored hs'.node
      have hfits : Fits x y (stored t) 0 127 := by
        intro j _
        have hle := length_levels_le t (j + 1)
        rw [length_levels_eq ht] at hle
        omega
      obtain ⟨parents, hloop⟩ := Option.isSome_iff_exists.mp ((cousinsLoop_spec hl hq hr).mpr hfits)
      obtain ⟨j, -, hall, hx, hy, hnext⟩ := cousinsLoop_result hl hq hloop
      refine ⟨_, by rw [hrun, hloop, Option.map_some], ?_⟩
      rw [← records_iff hs' hd hall hx hy hnext, Bool.and_eq_true, Bool.and_eq_true,
        Option.isSome_iff_ne_none, Option.isSome_iff_ne_none, decide_eq_true_eq, and_assoc]
    · have hroot : root.isNone = false := by rw [hs.root, isNone_ptr ht]
      rw [binaryTreeCousins, hroot, if_neg Bool.false_ne_true, createQueue_refused ho]
      rfl

/-- Two nodes on one level, each an only child. -/
def cousinsTree : Tree :=
  .node (0, 1) (.node (1, 2) (.node (3, 4) .nil .nil) .nil)
    (.node (2, 3) .nil (.node (4, 5) .nil .nil))

/-- The memory that holds it. -/
def cousinsHeap : Heap :=
  ((((((Memory.empty .allOk).malloc ⟨1, some 1, some 2⟩).2.malloc ⟨2, some 3, none⟩).2.malloc
    ⟨3, none, some 4⟩).2.malloc ⟨4, none, none⟩).2.malloc ⟨5, none, none⟩).2

theorem spans_cousinsTree : Spans cousinsHeap (some 0) cousinsTree := by
  refine ⟨rfl, fun n hn => ?_, by decide⟩
  have hlist : levelOrder (stored cousinsTree) = [(0, ⟨1, some 1, some 2⟩), (1, ⟨2, some 3, none⟩),
    (2, ⟨3, none, some 4⟩), (3, ⟨4, none, none⟩), (4, ⟨5, none, none⟩)] := rfl
  rw [hlist] at hn
  simp only [List.mem_cons, List.not_mem_nil, or_false] at hn
  rcases hn with rfl | rfl | rfl | rfl | rfl <;> rfl

theorem binaryTreeCousins_exact_cousinsTree :
    ∃ b, binaryTreeCousins cousinsHeap (some 0) 4 5 = some b ∧
      (b = true ↔ AreCousins cousinsTree 4 5) :=
  (binaryTreeCousins_exact spans_cousinsTree (by decide) (by decide) 4 5).1
    (.inr (Outcomes.succeed_allOk 2))

end DataStructures.BinaryTree
