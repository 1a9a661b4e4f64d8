import DataStructures.Tree.Trie.Shape

/-!
# Insertion

`Inserted m m' t t'`: from `m` to `m'` the tree `t` has become `t'`, which keeps its
root, and nodes have been changed or made only in it.  `Adds w t t'`: the paths of `t'`
are those of `t` and of `w`, and its marks are those of `t` and the one at `w`.

`trieInsert_spec`: whatever the allocations answer, `trie_insert` returns and leaves a
tree; if it returns the root, the tree has got the word.
-/

namespace DataStructures.Trie

open Lib Memory Trie.Tree

variable {m m' m'' : Heap} {t t' t'' k k' : Tree} {w : Word} {a : Nat} {l : Bool}
  {kids : Fin childrenNo → Tree} {c : Fin childrenNo}

/-- The tree `t` in `m` has become `t'` in `m'`. -/
structure Inserted (m m' : Heap) (t t' : Tree) : Prop where
  holds : Holds m' t'
  distinct : t'.Distinct
  ptr : t'.ptr = t.ptr
  has : ∀ b, t'.Has b → t.Has b ∨ m.next ≤ b
  frame : ∀ b, b < m.next → ¬ t.Has b → m'.cells b = m.cells b
  next : m.next ≤ m'.next

theorem Inserted.of_cells (h : Holds m t) (hd : t.Distinct) (he : ∀ b, m'.cells b = m.cells b)
    (hn : m.next ≤ m'.next) : Inserted m m' t t where
  holds := h.congr (fun b _ => he b)
  distinct := hd
  ptr := rfl
  has := fun _ hb => Or.inl hb
  frame := fun b _ _ => he b
  next := hn

theorem Inserted.trans (h : Inserted m m' t t') (h' : Inserted m' m'' t' t'') :
    Inserted m m'' t t'' where
  holds := h'.holds
  distinct := h'.distinct
  ptr := h'.ptr.trans h.ptr
  has := fun b hb => by
    rcases h'.has b hb with hb | hb
    · exact h.has b hb
    · exact Or.inr (Nat.le_trans h.next hb)
  frame := fun b hb hnot => by
    have hnot' : ¬ t'.Has b := fun hb' => by
      rcases h.has b hb' with hb' | hb'
      · exact hnot hb'
      · omega
    rw [h'.frame b (Nat.lt_of_lt_of_le hb h.next) hnot', h.frame b hb hnot]
  next := Nat.le_trans h.next h'.next

/-- The subtree of a kid may be replaced by one of fresh addresses. -/
theorem Tree.Distinct.update (h : (node a l kids).Distinct) (hk : k.Distinct)
    (hnew : ∀ b, k.Has b → (kids c).Has b ∨ (b ≠ a ∧ ∀ i, ¬ (kids i).Has b)) :
    (node a l (Function.update kids c k)).Distinct := by
  have hdisj : ∀ i, i ≠ c → ∀ b, k.Has b → ¬ (kids i).Has b := by
    intro i hi b hb hb'
    rcases hnew b hb with hc | ⟨_, hno⟩
    · exact h.2 c i hi.symm b hc hb'
    · exact hno i hb'
  refine ⟨fun i => ?_, fun i j hij b => ?_⟩
  · by_cases hi : i = c
    · subst hi
      rw [Function.update_self]
      refine ⟨hk, fun ha => ?_⟩
      rcases hnew a ha with hc | ⟨hne, _⟩
      · exact (h.1 i).2 hc
      · exact hne rfl
    · rw [Function.update_of_ne hi]
      exact h.1 i
  · by_cases hi : i = c
    · subst hi
      rw [Function.update_self, Function.update_of_ne hij.symm]
      exact hdisj j hij.symm b
    · rw [Function.update_of_ne hi]
      by_cases hj : j = c
      · subst hj
        rw [Function.update_self]
        exact fun hb hb' => hdisj i hij b hb' hb
      · rw [Function.update_of_ne hj]
        exact h.2 i j hij b

theorem ptr_update (kids : Fin childrenNo → Tree) (c : Fin childrenNo) (k : Tree) :
    (fun i => (Function.update kids c k i).ptr) =
      Function.update (fun i => (kids i).ptr) c k.ptr := by
  funext i
  exact Function.apply_update (fun _ => Tree.ptr) kids c k i

theorem has_update {b : Nat} (h : (node a l (Function.update kids c k)).Has b) :
    (node a l kids).Has b ∨ k.Has b := by
  rcases h with rfl | ⟨i, hi⟩
  · exact Or.inl (Or.inl rfl)
  · by_cases hic : i = c
    · subst hic
      rw [Function.update_self] at hi
      exact Or.inr hi
    · rw [Function.update_of_ne hic] at hi
      exact Or.inl (Or.inr ⟨i, hi⟩)

/-- **A kid that has changed** leaves its parent as it is. -/
theorem Inserted.of_kid (h : Holds m (node a l kids)) (hd : (node a l kids).Distinct)
    (hk : Inserted m m' (kids c) k) :
    Inserted m m' (node a l kids) (node a l (Function.update kids c k)) where
  holds := by
    refine ⟨?_, fun i => ?_⟩
    · rw [ptr_update, hk.ptr, Function.update_eq_self_iff.mpr rfl,
        hk.frame a (h.lt_next (Or.inl rfl)) (hd.1 c).2]
      exact h.1
    · by_cases hi : i = c
      · subst hi
        rw [Function.update_self]
        exact hk.holds
      · rw [Function.update_of_ne hi]
        exact (h.2 i).congr (fun b hb => hk.frame b (h.lt_next (Or.inr ⟨i, hb⟩))
          (fun hb' => hd.2 i c hi b hb hb'))
  distinct := by
    refine hd.update hk.distinct (fun b hb => ?_)
    rcases hk.has b hb with hb | hb
    · exact Or.inl hb
    · refine Or.inr ⟨?_, fun i hi => ?_⟩
      · rintro rfl
        exact absurd (h.lt_next (Or.inl rfl)) (Nat.not_lt.mpr hb)
      · exact absurd (h.lt_next (Or.inr ⟨i, hi⟩)) (Nat.not_lt.mpr hb)
  ptr := rfl
  has := fun b hb => by
    rcases has_update hb with hb | hb
    · exact Or.inl hb
    · exact (hk.has b hb).imp_left (fun hc => Or.inr ⟨c, hc⟩)
  frame := fun b hb hnot => hk.frame b hb (fun hc => hnot (Or.inr ⟨c, hc⟩))
  next := hk.next

/-- A tree of one node. -/
def fresh (a : Nat) : Tree := node a false (fun _ => nil)

theorem has_fresh {b : Nat} (h : (fresh a).Has b) : b = a := by
  rcases h with rfl | ⟨_, hi⟩
  · rfl
  · exact absurd hi id

theorem fresh_distinct (a : Nat) : (fresh a).Distinct :=
  ⟨fun _ => ⟨trivial, id⟩, fun _ _ _ _ hb => absurd hb id⟩

/-- **A new child**, where there was none. -/
theorem setChild_fresh (h : Holds m (node a l kids)) (hd : (node a l kids).Distinct)
    (hok : m.outcomes.first = true) : ∃ m₁ m₂, trieNodeCreate m = (some m.next, m₁) ∧
      setChild m₁ (some a) c (some m.next) = some m₂ ∧
      Inserted m m₂ (node a l kids) (node a l (Function.update kids c (fresh m.next))) ∧
      m₂.outcomes = m.outcomes.rest := by
  have hlt := h.lt_next (Or.inl rfl)
  obtain ⟨m₁, hr₁, hnew, hold, hnext, hout⟩ := malloc_ok hok ⟨fun _ => none, false⟩
  have ha : m₁.cells a = some ⟨fun i => (kids i).ptr, l⟩ := by
    rw [hold a (Nat.ne_of_lt hlt)]
    exact h.1
  obtain ⟨m₂, hr₂, hcell, honly⟩ := store_spec ha
    ⟨Function.update (fun i => (kids i).ptr) c (some m.next), l⟩
  have hkeep : ∀ b, b ≠ a → b ≠ m.next → m₂.cells b = m.cells b := by
    intro b hba hbn
    rw [honly.cells b (by rwa [List.mem_singleton]), hold b hbn]
  refine ⟨m₁, m₂, hr₁, ?_, ⟨⟨?_, fun i => ?_⟩, ?_, rfl, fun b hb => ?_, fun b hb hnot => ?_, ?_⟩, ?_⟩
  · rw [setChild, show m₁.load (some a) = _ from ha]
    exact hr₂
  · rw [hcell, ptr_update]
    rfl
  · by_cases hi : i = c
    · subst hi
      rw [Function.update_self]
      refine ⟨?_, fun _ => trivial⟩
      rw [honly.cells _ (by rw [List.mem_singleton]; omega), hnew]
      rfl
    · rw [Function.update_of_ne hi]
      refine (h.2 i).congr (fun b hb => hkeep b ?_ ?_)
      · rintro rfl
        exact (hd.1 i).2 hb
      · exact Nat.ne_of_lt (h.lt_next (Or.inr ⟨i, hb⟩))
  · refine hd.update (fresh_distinct _) (fun b hb => Or.inr ?_)
    rw [has_fresh hb]
    refine ⟨(Nat.ne_of_lt hlt).symm, fun i hi => ?_⟩
    exact Nat.lt_irrefl _ (h.lt_next (Or.inr ⟨i, hi⟩))
  · rcases has_update hb with hb | hb
    · exact Or.inl hb
    · exact Or.inr (Nat.le_of_eq (has_fresh hb).symm)
  · exact hkeep b (fun he => hnot (Or.inl he)) (Nat.ne_of_lt hb)
  · rw [honly.next, hnext]
    exact Nat.le_succ _
  · rw [honly.outcomes, hout]

/-- The child could not be made. -/
theorem setChild_failed (h : Holds m (node a l kids)) (hd : (node a l kids).Distinct)
    (hc : kids c = nil) (hfail : m.outcomes.first = false) : ∃ m₁ m₂,
      trieNodeCreate m = (none, m₁) ∧ setChild m₁ (some a) c none = some m₂ ∧
      Inserted m m₂ (node a l kids) (node a l kids) := by
  have ha : m.ask.2.cells a = some ⟨fun i => (kids i).ptr, l⟩ := h.1
  obtain ⟨m₂, hr₂, hcell, honly⟩ := store_spec ha
    ⟨Function.update (fun i => (kids i).ptr) c none, l⟩
  refine ⟨m.ask.2, m₂, malloc_fail hfail _, ?_, Inserted.of_cells h hd (fun b => ?_) ?_⟩
  · rw [setChild, show m.ask.2.load (some a) = _ from ha]
    exact hr₂
  · by_cases hba : b = a
    · subst hba
      rw [hcell, h.1]
      refine congrArg some (congrArg (TrieNode.mk · l) ?_)
      exact Function.update_eq_self_iff.mpr (by rw [hc]; rfl)
    · exact honly.cells b (by rwa [List.mem_singleton])
  · exact Nat.le_of_eq honly.next.symm

/-! ### Paths and marks -/

/-- The paths and the marks of `t'` are those of `t` and of `w`. -/
structure Adds (w : Word) (t t' : Tree) : Prop where
  sub : ∀ v, t'.sub v ≠ nil ↔ t.sub v ≠ nil ∨ v <+: w
  leafAt : ∀ v, t'.leafAt v = true ↔ t.leafAt v = true ∨ v = w

theorem Adds.of_kid (h : Adds w (kids c) k) :
    Adds (c :: w) (node a l kids) (node a l (Function.update kids c k)) where
  sub := fun v => by
    cases v with
    | nil =>
      rw [sub_nil, sub_nil]
      exact iff_of_true Tree.noConfusion (Or.inl Tree.noConfusion)
    | cons d v =>
      rw [node_sub_cons, node_sub_cons, List.cons_prefix_cons]
      by_cases hd : d = c
      · subst hd
        rw [Function.update_self]
        refine (h.sub v).trans (or_congr_right ?_)
        exact ⟨fun he => ⟨rfl, he⟩, fun he => he.2⟩
      · rw [Function.update_of_ne hd]
        exact ⟨Or.inl, fun hor => hor.resolve_right (fun hp => hd hp.1)⟩
  leafAt := fun v => by
    cases v with
    | nil =>
      rw [Tree.leafAt, Tree.leafAt, sub_nil, sub_nil]
      exact ⟨Or.inl, fun hor => hor.resolve_right (List.cons_ne_nil _ _ ·.symm)⟩
    | cons d v =>
      rw [Tree.leafAt, Tree.leafAt, node_sub_cons, node_sub_cons, List.cons.injEq]
      by_cases hd : d = c
      · subst hd
        rw [Function.update_self]
        refine (h.leafAt v).trans (or_congr_right ?_)
        exact ⟨fun he => ⟨rfl, he⟩, fun he => he.2⟩
      · rw [Function.update_of_ne hd]
        exact ⟨Or.inl, fun hor => hor.resolve_right (fun hp => hd hp.1)⟩

/-- A word added to a new node is the only one. -/
theorem Adds.of_fresh (h : Adds w (fresh a) k) : Adds w nil k where
  sub := fun v => by
    rw [h.sub v]
    refine ⟨fun hor => Or.inr ?_, fun hor => Or.inr (hor.resolve_left (· (nil_sub v)))⟩
    rcases hor with hv | hv
    · cases v with
      | nil => exact List.nil_prefix
      | cons d v =>
        rw [fresh, node_sub_cons, nil_sub] at hv
        exact absurd rfl hv
    · exact hv
  leafAt := fun v => by
    rw [h.leafAt v]
    have hno : (fresh a).leafAt v = false := by
      cases v with
      | nil => rfl
      | cons d v => rw [Tree.leafAt, fresh, node_sub_cons, nil_sub, leaf_nil]
    have hno' : nil.leafAt v = false := by rw [Tree.leafAt, nil_sub, leaf_nil]
    rw [hno, hno']

theorem Tree.Deep.update {n : Nat} (h : (node a l kids).Deep (n + 1)) (hk : k.Deep n) :
    (node a l (Function.update kids c k)).Deep (n + 1) := by
  intro i
  by_cases hi : i = c
  · subst hi
    rw [Function.update_self]
    exact hk
  · rw [Function.update_of_ne hi]
    exact h i

/-! ### The functions -/

/-- The mark on the last node. -/
theorem trieInsertFrom_nil (h : Holds m (node a l kids)) (hd : (node a l kids).Distinct) :
    ∃ m', trieInsertFrom m (some a) [] = some (true, m') ∧
      Inserted m m' (node a l kids) (node a true kids) ∧ m'.outcomes = m.outcomes := by
  obtain ⟨m', hr, hcell, honly⟩ := store_spec h.1 ⟨fun i => (kids i).ptr, true⟩
  refine ⟨m', ?_, ⟨⟨hcell, fun i => ?_⟩, hd, rfl, fun b hb => Or.inl hb, fun b _ hnot => ?_, ?_⟩,
    honly.outcomes⟩
  · rw [trieInsertFrom, h.load, Option.bind_eq_bind, Option.bind_some, hr]
    rfl
  · refine (h.2 i).congr (fun b hb => honly.cells b ?_)
    rw [List.mem_singleton]
    rintro rfl
    exact (hd.1 i).2 hb
  · refine honly.cells b ?_
    rw [List.mem_singleton]
    exact fun he => hnot (Or.inl he)
  · exact Nat.le_of_eq honly.next.symm

theorem Adds.mark : Adds [] (node a l kids) (node a true kids) where
  sub := fun v => by
    rw [List.prefix_nil]
    cases v with
    | nil => exact iff_of_true Tree.noConfusion (Or.inl Tree.noConfusion)
    | cons d v => exact ⟨Or.inl, fun hor => hor.resolve_right (List.cons_ne_nil _ _)⟩
  leafAt := fun v => by
    cases v with
    | nil => exact iff_of_true rfl (Or.inr rfl)
    | cons d v => exact ⟨Or.inl, fun hor => hor.resolve_right (List.cons_ne_nil _ _)⟩

/-- **The loop of `trie_insert`**, whatever the allocations answer. -/
theorem trieInsertFrom_spec (h : Holds m t) (hd : t.Distinct) (ht : t ≠ nil) (w : Word) :
    ∃ ok m' t', trieInsertFrom m t.ptr (str w) = some (ok, m') ∧ Inserted m m' t t' ∧
      (∀ n, t.Deep n → w.length < n → t'.Deep n) ∧ (ok = true → Adds w t t') ∧
      (m.outcomes = Outcomes.allOk → ok = true ∧ m'.outcomes = Outcomes.allOk) := by
  induction w generalizing m t with
  | nil =>
    cases t with
    | nil => exact absurd rfl ht
    | node a l kids =>
      obtain ⟨m', hr, hi, hout⟩ := trieInsertFrom_nil h hd
      refine ⟨true, m', _, hr, hi, fun n hn hlt => ?_, fun _ => Adds.mark, fun ho =>
        ⟨rfl, hout.trans ho⟩⟩
      obtain ⟨n, rfl⟩ := Nat.exists_eq_succ_of_ne_zero (Nat.ne_of_gt hlt)
      exact hn
  | cons c w ih =>
    cases t with
    | nil => exact absurd rfl ht
    | node a l kids =>
      rw [str_cons, ptr_node, trieInsertFrom, h.load, childIdx_letter, Option.bind_eq_bind,
        Option.bind_some, Option.bind_eq_bind, Option.bind_some]
      by_cases hc : kids c = nil
      · have hnone : ¬ ((kids c).ptr).isSome = true := fun hs => isSome_ptr.mp hs hc
        rw [if_neg hnone]
        cases hout : m.outcomes.first with
        | false =>
          obtain ⟨m₁, m₂, hr₁, hr₂, hi⟩ := setChild_failed h hd hc hout
          refine ⟨false, m₂, node a l kids, ?_, hi, fun n hn _ => hn, Bool.noConfusion, fun ho => ?_⟩
          · simp only [hr₁, hr₂, Option.bind_eq_bind, Option.bind_some, Option.isNone_none, if_true]
            rfl
          · rw [ho] at hout
            exact Bool.noConfusion hout
        | true =>
          obtain ⟨m₁, m₂, hr₁, hr₂, hi, hrest⟩ := setChild_fresh (c := c) h hd hout
          have hself : Function.update kids c (fresh m.next) c = fresh m.next :=
            Function.update_self ..
          have hfresh := hi.holds.2 c
          rw [hself] at hfresh
          obtain ⟨ok, m₃, k, hr₃, hi', hdeep, hadds, hall⟩ :=
            ih hfresh (fresh_distinct _) Tree.noConfusion
          rw [← hself] at hi'
          have hi'' := Inserted.of_kid hi.holds hi.distinct hi'
          rw [Function.update_idem] at hi''
          refine ⟨ok, m₃, _, ?_, hi.trans hi'', fun n hn hlt => ?_, fun hok => ?_, fun ho => ?_⟩
          · simp only [hr₁, hr₂, Option.bind_eq_bind, Option.bind_some, Option.isNone_some,
              Bool.false_eq_true, if_false]
            exact hr₃
          · rw [List.length_cons] at hlt
            obtain ⟨n, rfl⟩ := Nat.exists_eq_succ_of_ne_zero (show n ≠ 0 by omega)
            refine hn.update (hdeep n ?_ (by omega))
            obtain ⟨n, rfl⟩ := Nat.exists_eq_succ_of_ne_zero (show n ≠ 0 by omega)
            exact fun _ => trivial
          · have hadds := (hadds hok).of_fresh
            rw [← hc] at hadds
            exact hadds.of_kid
          · refine hall ?_
            rw [hrest, ho]
            rfl
      · have hsome : ((kids c).ptr).isSome = true := isSome_ptr.mpr hc
        rw [if_pos hsome]
        obtain ⟨ok, m', k, hr, hi, hdeep, hadds, hall⟩ := ih (h.2 c) (hd.1 c).1 hc
        refine ⟨ok, m', _, hr, Inserted.of_kid h hd hi, fun n hn hlt => ?_,
          fun hok => (hadds hok).of_kid, hall⟩
        rw [List.length_cons] at hlt
        obtain ⟨n, rfl⟩ := Nat.exists_eq_succ_of_ne_zero (show n ≠ 0 by omega)
        exact hn.update (hdeep n (hn c) (by omega))

/-- **`trie_insert` returns**, and leaves a tree with the same root; it returns the
root if it has added the word, and NULL if a node could not be made. -/
theorem trieInsert_spec (h : Holds m t) (hd : t.Distinct) (ht : t ≠ nil) (w : Word) :
    ∃ ok m' t', trieInsert m t.ptr (some (str w)) = some (if ok then t.ptr else none, m') ∧
      Inserted m m' t t' ∧ (∀ n, t.Deep n → w.length < n → t'.Deep n) ∧ (ok = true → Adds w t t') ∧
      (m.outcomes = Outcomes.allOk → ok = true ∧ m'.outcomes = Outcomes.allOk) := by
  obtain ⟨ok, m', t', hr, hspec⟩ := trieInsertFrom_spec h hd ht w
  have hsome : ¬ t.ptr.isNone = true := not_isNone_ptr.mpr ht
  refine ⟨ok, m', t', ?_, hspec⟩
  rw [trieInsert, if_neg hsome, hr]
  rfl

end DataStructures.Trie
