import DataStructures.Tree.Trie.Insert

/-!
# Deletion

`trieNodeDestroy_spec`: destroying a tree frees its nodes and no other one.  `t.cut w`
is the tree without the subtree at `w`.  `trieDelete_spec` says what `trie_delete` does
with a word: nothing if it is no path; where a node on its path has another child, it
cuts the path below the deepest one; and where there is none, it destroys the subtree at
the first letter and leaves it linked.
-/

namespace DataStructures.Trie

open Lib Memory Trie.Tree

variable {m m' : Heap} {t : Tree} {w : Word} {a b n : Nat} {l : Bool}
  {kids : Fin childrenNo → Tree} {c : Fin childrenNo}

/-! ### Destroying a tree -/

/-- From `m` to `m'` the nodes at the addresses in `P` have been freed. -/
structure Destroyed (P : Nat → Prop) (m m' : Heap) : Prop where
  gone : ∀ a, P a → m'.cells a = none
  kept : ∀ a, ¬ P a → m'.cells a = m.cells a
  next : m'.next = m.next
  outcomes : m'.outcomes = m.outcomes

/-- One round of the loop of `trie_node_destroy`. -/
def destroyChild (depth : Nat) (p : Ptr) (m : Heap) (i : Fin childrenNo) : Option Heap := do
  let node ← m.load p
  if (node.children i).isSome then trieNodeDestroy depth m (node.children i)
  else return m

/-- **The loop of `trie_node_destroy`** over the children `is`, when a call destroys
each of them. -/
theorem destroyChildren_spec {kids : Fin childrenNo → Tree}
    (hcall : ∀ i m, Holds m (kids i) → kids i ≠ nil →
      ∃ m', trieNodeDestroy n m (kids i).ptr = some m' ∧ Destroyed (kids i).Has m m')
    (hd : (node a l kids).Distinct) : ∀ (is : List (Fin childrenNo)) (m : Heap), is.Nodup →
    m.cells a = some ⟨fun i => (kids i).ptr, l⟩ → (∀ i ∈ is, Holds m (kids i)) →
    ∃ m', is.foldlM (destroyChild n (some a)) m = some m' ∧
      Destroyed (fun b => ∃ i ∈ is, (kids i).Has b) m m' := by
  intro is
  induction is with
  | nil =>
    intro m _ _ _
    exact ⟨m, rfl, fun b hb => absurd hb.choose_spec.1 List.not_mem_nil, fun _ _ => rfl, rfl, rfl⟩
  | cons i is ih =>
    intro m hnodup ha hkids
    obtain ⟨hi, hnodup⟩ := List.nodup_cons.mp hnodup
    have hround : ∃ m₁, destroyChild n (some a) m i = some m₁ ∧ Destroyed (kids i).Has m m₁ := by
      rw [destroyChild, show m.load (some a) = _ from ha, Option.bind_eq_bind, Option.bind_some]
      by_cases hc : kids i = nil
      · have hnone : ¬ ((kids i).ptr).isSome = true := fun hs => isSome_ptr.mp hs hc
        rw [if_neg hnone, hc]
        exact ⟨m, rfl, fun b hb => absurd hb id, fun _ _ => rfl, rfl, rfl⟩
      · rw [if_pos (isSome_ptr.mpr hc)]
        exact hcall i m (hkids i List.mem_cons_self) hc
    obtain ⟨m₁, hr, hm₁⟩ := hround
    obtain ⟨m₂, hr₂, hm₂⟩ := ih m₁ hnodup ((hm₁.kept a (hd.1 i).2).trans ha) (fun j hj =>
      (hkids j (List.mem_cons_of_mem _ hj)).congr (fun b hb => hm₁.kept b (fun hb' => by
        have hij : i ≠ j := fun he => hi (he ▸ hj)
        exact hd.2 i j hij b hb' hb)))
    refine ⟨m₂, ?_, fun b hb => ?_, fun b hb => ?_, hm₂.next.trans hm₁.next,
      hm₂.outcomes.trans hm₁.outcomes⟩
    · rw [List.foldlM_cons, hr]
      exact hr₂
    · by_cases hlater : ∃ j ∈ is, (kids j).Has b
      · exact hm₂.gone b hlater
      · obtain ⟨j, hj, hjb⟩ := hb
        rcases List.mem_cons.mp hj with rfl | hj
        · rw [hm₂.kept b hlater, hm₁.gone b hjb]
        · exact absurd ⟨j, hj, hjb⟩ hlater
    · rw [hm₂.kept b (fun hex => by
        obtain ⟨j, hj, hjb⟩ := hex
        exact hb ⟨j, List.mem_cons_of_mem _ hj, hjb⟩),
        hm₁.kept b (fun hib => hb ⟨i, List.mem_cons_self, hib⟩)]

/-- **`trie_node_destroy` frees the nodes of a tree**, each once, and no other one. -/
theorem trieNodeDestroy_spec (h : Holds m t) (hd : t.Distinct) (ht : t ≠ nil) (hdeep : t.Deep n) :
    ∃ m', trieNodeDestroy n m t.ptr = some m' ∧ Destroyed t.Has m m' := by
  induction t generalizing m n with
  | nil => exact absurd rfl ht
  | node a l kids ih =>
    cases n with
    | zero => exact absurd hdeep id
    | succ n =>
      obtain ⟨m₁, hr₁, hm₁⟩ := destroyChildren_spec (n := n) (l := l)
        (fun i m hi hne => ih i hi (hd.1 i).1 hne (hdeep i)) hd (List.finRange childrenNo) m
        (List.nodup_finRange _) h.1 (fun i _ => h.2 i)
      have ha : m₁.cells a = some ⟨fun i => (kids i).ptr, l⟩ := by
        rw [hm₁.kept a (fun hex => by
          obtain ⟨i, _, hi⟩ := hex
          exact (hd.1 i).2 hi)]
        exact h.1
      obtain ⟨m₂, hr₂, hgone, honly⟩ := free_spec ha
      refine ⟨m₂, ?_, fun b hb => ?_, fun b hb => ?_, honly.next.trans hm₁.next,
        honly.outcomes.trans hm₁.outcomes⟩
      · have hloop : (List.finRange childrenNo).foldlM (fun m i => do
            let node ← m.load (some a)
            if (node.children i).isSome then trieNodeDestroy n m (node.children i)
            else return m) m = some m₁ := hr₁
        rw [ptr_node, trieNodeDestroy, hloop, Option.bind_eq_bind, Option.bind_some,
          show m₁.load (some a) = _ from ha, Option.bind_eq_bind, Option.bind_some]
        exact hr₂
      · by_cases hba : b = a
        · rw [hba]
          exact hgone
        · rw [honly.cells b (by rwa [List.mem_singleton])]
          obtain ⟨i, hi⟩ := hb.resolve_left hba
          exact hm₁.gone b ⟨i, List.mem_finRange i, hi⟩
      · have hba : b ≠ a := fun he => hb (Or.inl he)
        rw [honly.cells b (by rwa [List.mem_singleton]), hm₁.kept b (fun hex => by
          obtain ⟨i, _, hi⟩ := hex
          exact hb (Or.inr ⟨i, hi⟩))]

/-! ### Cutting a tree -/

namespace Tree

/-- The tree without the subtree a path leads to. -/
def cut : Tree → Word → Tree
  | _, [] => nil
  | nil, _ :: _ => nil
  | node a l kids, c :: w => node a l (Function.update kids c ((kids c).cut w))

@[simp] theorem cut_nil (t : Tree) : t.cut [] = nil := by cases t <;> rfl

theorem ptr_cut (t : Tree) (hw : w ≠ []) : (t.cut w).ptr = t.ptr := by
  cases w with
  | nil => exact absurd rfl hw
  | cons c w => cases t <;> rfl

/-- **The paths and marks that are left** are those that do not go on from `w`. -/
theorem sub_cut (t : Tree) (w v : Word) :
    ((t.cut w).sub v ≠ nil ↔ t.sub v ≠ nil ∧ ¬ w <+: v) ∧
    ((t.cut w).leafAt v = true ↔ t.leafAt v = true ∧ ¬ w <+: v) := by
  induction w generalizing t v with
  | nil =>
    rw [cut_nil, nil_sub, leafAt, nil_sub]
    exact ⟨iff_of_false (· rfl) (fun h => h.2 List.nil_prefix),
      iff_of_false Bool.noConfusion (fun h => h.2 List.nil_prefix)⟩
  | cons c w ih =>
    cases t with
    | nil =>
      rw [cut, nil_sub, leafAt, nil_sub]
      exact ⟨iff_of_false (· rfl) (fun h => h.1 rfl),
        iff_of_false Bool.noConfusion (fun h => Bool.noConfusion h.1)⟩
    | node a l kids =>
      cases v with
      | nil =>
        have hno : ¬ (c :: w) <+: [] := fun h => List.cons_ne_nil _ _ (List.prefix_nil.mp h)
        rw [cut, sub_nil, sub_nil, leafAt, leafAt, sub_nil, sub_nil]
        exact ⟨iff_of_true Tree.noConfusion ⟨Tree.noConfusion, hno⟩,
          ⟨fun h => ⟨h, hno⟩, fun h => h.1⟩⟩
      | cons d v =>
        rw [cut, leafAt, leafAt, node_sub_cons, node_sub_cons, List.cons_prefix_cons]
        by_cases hdc : d = c
        · subst hdc
          rw [Function.update_self]
          obtain ⟨h1, h2⟩ := ih (kids d) v
          have htrue : (d = d ∧ w <+: v) ↔ w <+: v := and_iff_right rfl
          rw [htrue]
          exact ⟨h1, h2⟩
        · rw [Function.update_of_ne hdc]
          have hno : ¬ (c = d ∧ w <+: v) := fun h => hdc h.1.symm
          exact ⟨⟨fun h => ⟨h, hno⟩, fun h => h.1⟩, ⟨fun h => ⟨h, hno⟩, fun h => h.1⟩⟩

theorem Has.of_cut {t : Tree} (h : (t.cut w).Has a) : t.Has a := by
  induction w generalizing t with
  | nil =>
    rw [cut_nil] at h
    exact absurd h id
  | cons c w ih =>
    cases t with
    | nil => exact absurd h id
    | node b l kids =>
      rcases has_update h with h | h
      · exact h
      · exact Or.inr ⟨c, ih h⟩

theorem Distinct.cut {t : Tree} (h : t.Distinct) (w : Word) : (t.cut w).Distinct := by
  induction w generalizing t with
  | nil =>
    rw [cut_nil]
    exact trivial
  | cons c w ih =>
    cases t with
    | nil => exact trivial
    | node b l kids => exact h.update (ih (h.1 c).1) (fun x hx => Or.inl hx.of_cut)

theorem Deep.cut {t : Tree} (h : t.Deep n) (w : Word) : (t.cut w).Deep n := by
  induction w generalizing t n with
  | nil =>
    rw [cut_nil]
    exact trivial
  | cons c w ih =>
    cases t with
    | nil => exact trivial
    | node b l kids =>
      cases n with
      | zero => exact absurd h id
      | succ n => exact h.update (ih (h c))

end Tree

/-- **The memory holds the rest** once the subtree at `w ++ [c]` has gone and the link to
it is NULL. -/
theorem Holds.cut (h : Holds m t) (hd : t.Distinct) {w : Word} (hw : t.sub w = node b l kids)
    (hb : m'.cells b = some ⟨Function.update (fun i => (kids i).ptr) c none, l⟩)
    (hkeep : ∀ x, t.Has x → x ≠ b → ¬ (kids c).Has x → m'.cells x = m.cells x) :
    Holds m' (t.cut (w ++ [c])) := by
  induction w generalizing t with
  | nil =>
    rw [sub_nil] at hw
    subst hw
    rw [List.nil_append, Tree.cut, cut_nil]
    refine ⟨?_, fun i => ?_⟩
    · rw [ptr_update]
      exact hb
    · by_cases hi : i = c
      · subst hi
        rw [Function.update_self]
        exact trivial
      · rw [Function.update_of_ne hi]
        refine (h.2 i).congr (fun x hx => hkeep x (Or.inr ⟨i, hx⟩) ?_ (hd.2 i c hi x hx))
        rintro rfl
        exact (hd.1 i).2 hx
  | cons d w ih =>
    cases t with
    | nil => exact absurd ((nil_sub _).symm.trans hw) Tree.noConfusion
    | node a l₀ kids₀ =>
      have hbd : (kids₀ d).Has b := by
        refine Has.of_sub (w := w) ?_
        rw [show (kids₀ d).sub w = _ from hw]
        exact Or.inl rfl
      have hcd : ∀ x, (kids c).Has x → (kids₀ d).Has x := by
        intro x hx
        refine Has.of_sub (w := w) ?_
        rw [show (kids₀ d).sub w = _ from hw]
        exact Or.inr ⟨c, hx⟩
      rw [List.cons_append, Tree.cut]
      refine ⟨?_, fun i => ?_⟩
      · have hab : a ≠ b := fun he => (hd.1 d).2 (he ▸ hbd)
        rw [ptr_update, ptr_cut _ (List.concat_ne_nil c w), Function.update_eq_self_iff.mpr rfl,
          hkeep a (Or.inl rfl) hab (fun hx => (hd.1 d).2 (hcd a hx))]
        exact h.1
      · by_cases hi : i = d
        · subst hi
          rw [Function.update_self]
          exact ih (h.2 i) (hd.1 i).1 hw (fun x hx => hkeep x (Or.inr ⟨i, hx⟩))
        · rw [Function.update_of_ne hi]
          refine (h.2 i).congr (fun x hx => hkeep x (Or.inr ⟨i, hx⟩) ?_ ?_)
          · rintro rfl
            exact hd.2 i d hi x hx hbd
          · exact fun hx' => hd.2 i d hi x hx (hcd x hx')

/-! ### The function -/

theorem take_succ_of {k : Nat} (hk : w[k]? = some c) : w.take (k + 1) = w.take k ++ [c] := by
  rw [List.take_add_one, hk, Option.toList_some]

theorem take_succ_ne_nil {k : Nat} (h : Branches t w k) : w.take (k + 1) ≠ [] := by
  obtain ⟨c, hc, _⟩ := h
  rw [take_succ_of hc]
  exact List.concat_ne_nil c _

/-- Where nothing branches off, the subtree at the first letter is destroyed. -/
theorem trieDelete_first {v : Word} (h : Holds m t) (hd : t.Distinct)
    (hr : trieLongestPrefix m t.ptr (some (str (c :: v))) = some 0) (hw : t.sub (c :: v) ≠ nil) :
    ∃ m', trieDelete m t.ptr (some (str (c :: v))) = some (t.ptr, m') ∧
      Destroyed (t.sub [c]).Has m m' := by
  cases t with
  | nil => exact absurd (nil_sub _) hw
  | node a l kids =>
    have hsome : ¬ (node a l kids).ptr.isNone = true := not_isNone_ptr.mpr Tree.noConfusion
    have hc : kids c ≠ nil := kid_ne_nil hw
    have hcs : ¬ ((kids c).ptr).isNone = true := not_isNone_ptr.mpr hc
    have hdeep' : (kids c).Deep m.next := Holds.deep (h.2 c) (hd.1 c).1
    obtain ⟨m', hr', hm'⟩ := trieNodeDestroy_spec (h.2 c) (hd.1 c).1 hc hdeep'
    refine ⟨m', ?_, ?_⟩
    · rw [trieDelete, if_neg hsome, hr]
      simp only [Option.bind_eq_bind, Option.bind_some, Int.lt_irrefl, if_false, if_true, str_cons,
        List.headD_cons, childIdx_letter, ptr_node, h.load, if_neg hcs, hr']
      rfl
    · rw [node_sub_cons, sub_nil]
      exact hm'

/-- Below the deepest branching the subtree is cut. -/
theorem trieDelete_cut {k : Nat} (h : Holds m t) (hd : t.Distinct)
    (hr : trieLongestPrefix m t.ptr (some (str w)) = some ((k : Int) + 1)) (hw : t.sub w ≠ nil)
    (hk : Branches t w k) :
    ∃ m', trieDelete m t.ptr (some (str w)) = some (t.ptr, m') ∧
      Holds m' (t.cut (w.take (k + 1))) ∧ m'.next = m.next ∧ m'.outcomes = m.outcomes := by
  obtain ⟨c, hc, _⟩ := hk
  have htake := take_succ_of hc
  have hpath : t.sub (w.take (k + 1)) ≠ nil := sub_ne_nil_of_prefix (List.take_prefix _ _) hw
  have hpath' : t.sub (w.take k) ≠ nil := sub_ne_nil_of_prefix (List.take_prefix _ _) hw
  have hroot : t.sub [] ≠ nil := sub_ne_nil_of_prefix List.nil_prefix hw
  rw [sub_nil] at hroot
  obtain ⟨b, l, kids, hsub⟩ : ∃ b l kids, t.sub (w.take k) = node b l kids := by
    cases hs : t.sub (w.take k) with
    | nil => exact absurd hs hpath'
    | node b l kids => exact ⟨b, l, kids, rfl⟩
  -- the subtree that goes is a child of the node at the branching
  have hkid : t.sub (w.take (k + 1)) = kids c := by
    rw [htake, sub_append, hsub, node_sub_cons, sub_nil]
  rw [hkid] at hpath
  have hcs : ¬ ((kids c).ptr).isNone = true := not_isNone_ptr.mpr hpath
  have hhold := h.sub (w.take k)
  have hdist := hd.sub (w.take k)
  rw [hsub] at hhold hdist
  obtain ⟨m₁, hr₁, hm₁⟩ := trieNodeDestroy_spec (hhold.2 c) (hdist.1 c).1 hpath
    (Holds.deep (hhold.2 c) (hdist.1 c).1)
  have hb : m₁.cells b = some ⟨fun i => (kids i).ptr, l⟩ := by
    rw [hm₁.kept b (hdist.1 c).2]
    exact hhold.1
  obtain ⟨m₂, hr₂, hcell, honly⟩ := store_spec hb
    ⟨Function.update (fun i => (kids i).ptr) c none, l⟩
  have hwalk := trieWalk_eq h hpath'
  rw [hsub, ptr_node, str_take] at hwalk
  have hget : (str w)[k]? = some (letter c) := by
    rw [str, List.getElem?_map, hc, Option.map_some]
  have hneg : ¬ (k : Int) + 1 < 0 := by omega
  have hpos : ¬ (k : Int) + 1 = 0 := by omega
  have hlast : ((k : Int) + 1).toNat - 1 = k := by omega
  have hset : setChild m₁ (some b) c none = some m₂ := by
    rw [setChild, show m₁.load (some b) = _ from hb]
    exact hr₂
  refine ⟨m₂, ?_, ?_, honly.next.trans hm₁.next, honly.outcomes.trans hm₁.outcomes⟩
  · rw [trieDelete, if_neg (not_isNone_ptr.mpr hroot), hr]
    simp only [Option.bind_eq_bind, Option.bind_some, if_neg hneg, if_neg hpos, hlast, hget, hwalk,
      childIdx_letter, hhold.load, if_neg hcs, hr₁, hset]
    rfl
  · rw [htake]
    refine h.cut hd hsub hcell (fun x _ hxb hxc => ?_)
    rw [honly.cells x (by rwa [List.mem_singleton]), hm₁.kept x hxc]

/-- **What `trie_delete` does with a word**, on paths of fewer than 256 nodes. -/
theorem trieDelete_spec (h : Holds m t) (hd : t.Distinct) (ht : t ≠ nil) (hdeep : t.Deep 256)
    (w : Word) :
    (t.sub w = nil ∧ trieDelete m t.ptr (some (str w)) = some (none, m)) ∨
    (w = [] ∧ trieDelete m t.ptr (some (str w)) = none) ∨
    (∃ c v m', w = c :: v ∧ t.sub w ≠ nil ∧ (∀ j, ¬ Branches t w j) ∧
      trieDelete m t.ptr (some (str w)) = some (t.ptr, m') ∧ Destroyed (t.sub [c]).Has m m') ∨
    ∃ (k : Nat) (m' : Heap), t.sub w ≠ nil ∧ Branches t w k ∧ (∀ j > k, ¬ Branches t w j) ∧
      trieDelete m t.ptr (some (str w)) = some (t.ptr, m') ∧ Holds m' (t.cut (w.take (k + 1))) ∧
      m'.next = m.next ∧ m'.outcomes = m.outcomes := by
  have hsome : ¬ t.ptr.isNone = true := not_isNone_ptr.mpr ht
  rcases trieLongestPrefix_eq h ht hdeep w with ⟨hw, hr⟩ | ⟨hw, hr, hno⟩ | ⟨k, hw, hr, hk, hmax⟩
  · refine Or.inl ⟨hw, ?_⟩
    rw [trieDelete, if_neg hsome, hr]
    rfl
  · right
    cases w with
    | nil =>
      refine Or.inl ⟨rfl, ?_⟩
      rw [trieDelete, if_neg hsome, hr]
      rfl
    | cons c v =>
      obtain ⟨m', hr', hm'⟩ := trieDelete_first h hd hr hw
      exact Or.inr (Or.inl ⟨c, v, m', rfl, hw, hno, hr', hm'⟩)
  · obtain ⟨m', hr', hm'⟩ := trieDelete_cut h hd hr hw hk
    exact Or.inr (Or.inr (Or.inr ⟨k, m', hw, hk, hmax, hr', hm'⟩))

end DataStructures.Trie
