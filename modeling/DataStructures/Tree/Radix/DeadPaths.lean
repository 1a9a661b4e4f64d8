import DataStructures.Tree.Radix.Nodes

/-!
# Dead paths

A removal that empties a node can leave it in the tree.  `__node_merge` folds the
empty node into its parent only if that has no data and no other child (`Bare`),
and `__node_cleanup` removes it only below the root; so it disappears exactly when
all nodes above it on its path are bare.

`Strands t key` is the other case.  `Shrinks.along` follows the path upwards, and
`remove_below_iff` is its result for the root: **a removal leaves a dead leaf
exactly when it strands one**.  Hence `radixTree_noDeadPaths` for runs whose
removals strand nothing, and `radixTree_deadPath` for a run with one that does.
-/

namespace DataStructures.Radix

open Lib Outcomes RadixTreeNode

variable {V : Type}

/-- The nodes below `t` that `key` leads through, from the top. -/
def path : RadixTreeNode V → List Byte → List (RadixTreeNode V)
  | .null, _ => []
  | .node _ _ _, [] => []
  | .node _ _ ch, c :: r =>
      match (ch c.val).pfx.bind (c :: r).dropPrefix? with
      | none => []
      | some s => ch c.val :: path (ch c.val) s

/-- No data, and one child. -/
def Bare (t : RadixTreeNode V) : Prop := t.data = none ∧ nodeChildren t = 1

/-- The last of the nodes is a leaf, and all above it are bare. -/
def EmptiesAlong (l : List (RadixTreeNode V)) : Prop :=
  ∃ l' n x, l = l' ++ [n, x] ∧ nodeChildren x = 0 ∧ Bare n ∧ ∀ t ∈ l', Bare t

/-- The last of the nodes is a leaf and the one above it is bare, but not all
nodes above are. -/
def StrandsAlong (l : List (RadixTreeNode V)) : Prop :=
  ∃ l' n x, l = l' ++ [n, x] ∧ nodeChildren x = 0 ∧ Bare n ∧ ∃ t ∈ l', ¬ Bare t

/-- **The removal of `key` leaves a dead leaf behind**: `key` is stored in a leaf,
the node above the leaf has neither data nor another child, and some node further
up, the root apart, has. -/
def Strands (t : RadixTree V) (key : List Byte) : Prop :=
  (find t key).isSome ∧ StrandsAlong (path t key)

/-! ### Paths -/

theorem path_nil (t : RadixTreeNode V) : path t [] = [] := by cases t <;> rfl

theorem path_append {p : Option (List Byte)} {d d' : Option V} {ch ch' : UInt8 → RadixTreeNode V}
    {c : Byte} {q : List Byte} (hch : ch c.val = node (some (c :: q)) d' ch') (s : List Byte) :
    path (node p d ch) (c :: (q ++ s)) = ch c.val :: path (ch c.val) s := by
  have hd : (ch c.val).pfx.bind (c :: (q ++ s)).dropPrefix? = some s := by
    rw [hch]
    exact dropPrefix?_append_self (c :: q) s
  rw [path, hd]

theorem not_strandsAlong_pair (t x : RadixTreeNode V) : ¬ StrandsAlong [t, x] := by
  rintro ⟨l', n, y, he, _, _, m, hm, _⟩
  have hl := congrArg List.length he
  rw [List.length_append] at hl
  simp only [List.length_cons, List.length_nil] at hl
  rw [List.length_eq_zero_iff.mp (by omega : l'.length = 0)] at hm
  exact absurd hm (by simp)

theorem not_strandsAlong_single (x : RadixTreeNode V) : ¬ StrandsAlong [x] := by
  rintro ⟨l', n, y, he, _⟩
  have hl := congrArg List.length he
  rw [List.length_append] at hl
  simp at hl

theorem emptiesAlong_pair {t x : RadixTreeNode V} :
    EmptiesAlong [t, x] ↔ nodeChildren x = 0 ∧ Bare t := by
  refine ⟨?_, ?_⟩
  · intro h
    obtain ⟨l', n, y, he, hy, hn, _⟩ := h
    have hl := congrArg List.length he
    rw [List.length_append] at hl
    simp only [List.length_cons, List.length_nil] at hl
    rw [List.length_eq_zero_iff.mp (by omega : l'.length = 0), List.nil_append, List.cons.injEq,
      List.cons.injEq] at he
    obtain ⟨rfl, rfl, _⟩ := he
    exact ⟨hy, hn⟩
  · intro h
    obtain ⟨hx, ht⟩ := h
    exact ⟨[], t, x, rfl, hx, ht, by simp⟩

/-- A list of three or more, seen as a node in front of a list that ends in two. -/
theorem cons_eq_append_pair {α : Type} {a b c : α} {l : List α} {P : List α → α → α → Prop} :
    (∃ l' n x, a :: b :: c :: l = l' ++ [n, x] ∧ P l' n x) ↔
      ∃ l' n x, b :: c :: l = l' ++ [n, x] ∧ P (a :: l') n x := by
  refine ⟨?_, ?_⟩
  · intro h
    obtain ⟨l', n, x, he, hP⟩ := h
    cases l' with
    | nil => simp at he
    | cons a' l' =>
      rw [List.cons_append, List.cons.injEq] at he
      obtain ⟨rfl, he⟩ := he
      exact ⟨l', n, x, he, hP⟩
  · intro h
    obtain ⟨l', n, x, he, hP⟩ := h
    exact ⟨a :: l', n, x, by rw [he, List.cons_append], hP⟩

theorem emptiesAlong_cons {t a b : RadixTreeNode V} {l : List (RadixTreeNode V)} :
    EmptiesAlong (t :: a :: b :: l) ↔ Bare t ∧ EmptiesAlong (a :: b :: l) := by
  rw [EmptiesAlong, cons_eq_append_pair, EmptiesAlong]
  simp only [List.mem_cons, forall_eq_or_imp]
  refine ⟨?_, ?_⟩
  · intro h
    obtain ⟨l', n, x, he, hx, hn, ht, hl⟩ := h
    exact ⟨ht, l', n, x, he, hx, hn, hl⟩
  · intro h
    obtain ⟨ht, l', n, x, he, hx, hn, hl⟩ := h
    exact ⟨l', n, x, he, hx, hn, ht, hl⟩

theorem strandsAlong_cons {t a b : RadixTreeNode V} {l : List (RadixTreeNode V)} :
    StrandsAlong (t :: a :: b :: l) ↔
      StrandsAlong (a :: b :: l) ∨ ¬ Bare t ∧ EmptiesAlong (a :: b :: l) := by
  rw [StrandsAlong, cons_eq_append_pair, StrandsAlong, EmptiesAlong]
  simp only [List.mem_cons, exists_eq_or_imp]
  refine ⟨?_, ?_⟩
  · intro h
    obtain ⟨l', n, x, he, hx, hn, hl⟩ := h
    by_cases hex : ∃ m ∈ l', ¬ Bare m
    · exact Or.inl ⟨l', n, x, he, hx, hn, hex⟩
    · refine Or.inr ⟨hl.resolve_right hex, l', n, x, he, hx, hn, fun m hm => ?_⟩
      by_contra hm'
      exact hex ⟨m, hm, hm'⟩
  · intro h
    rcases h with ⟨l', n, x, he, hx, hn, hl⟩ | ⟨ht, l', n, x, he, hx, hn, _⟩
    · exact ⟨l', n, x, he, hx, hn, Or.inr hl⟩
    · exact ⟨l', n, x, he, hx, hn, Or.inl ht⟩

/-- The key of a removal leads somewhere. -/
theorem Shrinks.path_ne_nil {it it' : RadixTreeNode V} {key : List Byte} (h : Shrinks it key it') :
    ∃ x l, path it key = x :: l := by
  cases h with
  | @leaf p d ch c q v ch' _ hch _ _ =>
    have := path_append (p := p) (d := d) hch []
    rw [List.append_nil] at this
    exact ⟨_, _, this⟩
  | @clear p d ch c q v ch' hch _ =>
    have := path_append (p := p) (d := d) hch []
    rw [List.append_nil] at this
    exact ⟨_, _, this⟩
  | @descend p d ch c q key d' ch' it' _ hch hs hc => exact ⟨_, _, path_append hch _⟩

/-! ### Children of a changed node -/

/-- A node is bare exactly when it has no data and all other children are null. -/
theorem bare_iff {p : Option (List Byte)} {d : Option V} {ch : UInt8 → RadixTreeNode V}
    {b : UInt8} (hb : ch b ≠ null) : Bare (node p d ch) ↔ d = none ∧ ∀ j, j ≠ b → ch j = null := by
  apply and_congr_right
  intro _
  rw [nodeChildren_eq_one]
  constructor
  · rintro ⟨i, hi, hj⟩
    obtain rfl : b = i := by
      by_contra hne
      exact hb (hj b hne)
    exact hj
  · exact fun h => ⟨b, hb, h⟩

/-- Without that child, a bare node is left with nothing. -/
theorem bare_iff_not_alive {p p' : Option (List Byte)} {d : Option V}
    {ch : UInt8 → RadixTreeNode V} {b : UInt8} (hb : ch b ≠ null) :
    Bare (node p d ch) ↔ ¬ Alive (node p' d (Function.update ch b null)) := by
  rw [bare_iff hb, not_alive_iff, nodeChildren_eq_zero]
  refine and_congr_right (fun _ => ⟨fun h j => ?_, fun h j hj => ?_⟩)
  · rw [children_node]
    by_cases hj : j = b
    · rw [hj, Function.update_self]
    · rw [Function.update_of_ne hj, h j hj]
  · have := h j
    rwa [children_node, Function.update_of_ne hj] at this

theorem below_dead (P : RadixTreeNode V → Prop) {t : RadixTreeNode V} (h : nodeChildren t = 0) :
    Below P t := by
  cases t with
  | null => trivial
  | node p d ch =>
    intro b
    have hb : ch b = null := nodeChildren_eq_zero.mp h b
    rw [hb]
    exact ⟨fun h => absurd rfl h, trivial⟩

theorem below_update_iff {P : RadixTreeNode V → Prop} {p : Option (List Byte)} {d : Option V}
    {ch : UInt8 → RadixTreeNode V} (h : Below P (node p d ch)) {b : UInt8} {t : RadixTreeNode V}
    (ht : t ≠ null) : Below P (node p d (Function.update ch b t)) ↔ P t ∧ Below P t := by
  refine ⟨?_, ?_⟩
  · intro hb
    have := hb b
    rw [Function.update_self] at this
    exact ⟨this.1 ht, this.2⟩
  · intro hx
    obtain ⟨hP, hb⟩ := hx
    exact h.update (fun _ => hP) hb

/-- `__node_cleanup` removes the dead leaves among the children. -/
theorem below_cleanup_iff {p : Option (List Byte)} {d : Option V} {ch : UInt8 → RadixTreeNode V} :
    Below Alive (nodeCleanup (node p d ch)) ↔ ∀ b, Below Alive (ch b) := by
  apply forall_congr'
  intro b
  dsimp only
  split
  next h => exact ⟨fun hb => hb.2, fun hb => ⟨fun hne => absurd (isNull_iff.mp h) hne, hb⟩⟩
  next =>
    split
    next h => exact ⟨fun _ => below_dead _ h.1, fun _ => ⟨fun h => absurd rfl h, trivial⟩⟩
    next h =>
      refine ⟨fun hb => hb.2, fun hb => ⟨fun _ => ?_, hb⟩⟩
      by_contra hd
      rw [not_alive_iff] at hd
      exact h ⟨hd.2, Option.isNone_iff_eq_none.mpr hd.1⟩

/-! ### Compacting a changed node -/

namespace Compacts

/-- Where no node is dead, compacting makes none, and does not empty the node. -/
theorem alive {t t' : RadixTreeNode V} (h : Compacts t t') {p : List Byte} (hp : t.pfx = some p)
    (hb : Below Alive t) : (Alive t' ↔ Alive t) ∧ Below Alive t' := by
  cases h with
  | cleanup => exact absurd hp (by simp)
  | keep _ => exact ⟨Iff.rfl, hb⟩
  | @merge p ch b q cch hcb _ =>
    have hb' := hb b
    rw [hcb] at hb'
    have hal : Alive (node (some q) none cch) := hb'.1 nofun
    exact ⟨⟨fun _ => alive_of_child (b := b) (by rw [children_node, hcb]; exact nofun),
      fun _ => hal⟩, hb'.2.relabel⟩

/-- **Compacting a node whose child has become `it`** folds the child into it only
if the node is bare, and always if the child has no data either. -/
theorem update_cases {p : List Byte} {d : Option V} {ch : UInt8 → RadixTreeNode V} {b : UInt8}
    {it t : RadixTreeNode V} (h : Compacts (node (some p) d (Function.update ch b it)) t)
    (hb : ch b ≠ null) (hit : it ≠ null) :
    (t = node (some p) d (Function.update ch b it) ∧
      ¬ (Bare (node (some p) d ch) ∧ it.data = none)) ∨
    (Bare (node (some p) d ch) ∧ ∃ q cch, it = node (some q) none cch ∧
      t = node (some (p ++ q)) none cch) := by
  rw [bare_iff hb]
  cases h with
  | keep hf =>
    refine Or.inl ⟨rfl, fun ⟨⟨hd, hj⟩, hid⟩ => hf ⟨hd, b, ?_, ?_, fun j hjb => ?_⟩⟩
    · rw [children_node, Function.update_self]; exact hit
    · rw [children_node, Function.update_self]; exact hid
    · rw [children_node, Function.update_of_ne hjb]; exact hj j hjb
  | @merge _ _ i q cch hi hj =>
    right
    obtain rfl : b = i := by
      by_contra hne
      have := hj b hne
      rw [Function.update_self] at this
      exact hit this
    rw [Function.update_self] at hi
    refine ⟨⟨rfl, fun j hjb => ?_⟩, q, cch, hi, rfl⟩
    have := hj j hjb
    rwa [Function.update_of_ne hjb] at this

/-- **What becomes of a dead child.**  A bare node takes it in, and is then dead
itself; any other node keeps it. -/
theorem along {p : List Byte} {d : Option V} {ch : UInt8 → RadixTreeNode V} {b : UInt8}
    {it t : RadixTreeNode V} (h : Compacts (node (some p) d (Function.update ch b it)) t)
    (hbe : Below Alive (node (some p) d ch)) (hb : ch b ≠ null) (hit : it ≠ null) :
    (Alive t ↔ Alive it ∨ ¬ Bare (node (some p) d ch)) ∧
      (Below Alive t ↔ Below Alive it ∧ (Alive it ∨ Bare (node (some p) d ch))) := by
  rcases h.update_cases hb hit with ⟨rfl, hn⟩ | ⟨hbare, q, cch, rfl, rfl⟩
  · have hal : Alive (node (some p) d (Function.update ch b it)) :=
      alive_of_child (b := b) (by rw [children_node, Function.update_self]; exact hit)
    have hdead : ¬ Alive it → ¬ Bare (node (some p) d ch) :=
      fun hd hbare => hn ⟨hbare, (not_alive_iff.mp hd).1⟩
    rw [below_update_iff hbe hit, @and_comm (Alive it)]
    refine ⟨iff_of_true hal (or_iff_not_imp_left.mpr hdead), and_congr_right (fun _ => ?_)⟩
    exact ⟨Or.inl, fun h => h.elim id (fun hbare => by_contra (fun hd => hdead hd hbare))⟩
  · exact ⟨⟨Or.inl, fun h => h.resolve_right (not_not.mpr hbare)⟩,
      ⟨fun h => ⟨h, Or.inr hbare⟩, fun h => h.1⟩⟩

end Compacts

/-! ### Removing along a path -/

namespace Shrinks

variable {it it' : RadixTreeNode V} {key : List Byte}

/-- **Removing below the root.**  What is left is dead exactly when the path has
been emptied up to here, and has a dead leaf below exactly when one was stranded
on the way.  By induction on the removal, from the leaf upwards. -/
theorem along (h : Shrinks it key it') : Below Alive it → ∀ p, it.pfx = some p →
    (Alive it' ↔ ¬ EmptiesAlong (it :: path it key)) ∧
      (Below Alive it' ↔ ¬ StrandsAlong (it :: path it key)) := by
  induction h with
  | @leaf p d ch c q v ch' t hch h0 hc =>
    intro hb p' hp
    have hne : ch c.val ≠ null := by rw [hch]; exact nofun
    have hpath := path_append (p := p) (d := d) hch []
    rw [List.append_nil, path_nil] at hpath
    obtain ⟨h1, h2⟩ := hc.alive hp (hb.update (fun h => absurd rfl h) trivial)
    rw [hpath, emptiesAlong_pair, @bare_iff_not_alive _ p p _ _ _ hne, h1, and_iff_right h0, not_not]
    exact ⟨Iff.rfl, iff_of_true h2 (not_strandsAlong_pair _ _)⟩
  | @clear p d ch c q v ch' hch h0 =>
    intro hb p' hp
    have hpath := path_append (p := p) (d := d) hch []
    rw [List.append_nil, path_nil] at hpath
    rw [hpath, emptiesAlong_pair]
    have h1 : Alive (node p d (Function.update ch c.val (node (some (c :: q)) none ch'))) :=
      alive_of_child (b := c.val) (by rw [children_node, Function.update_self]; exact nofun)
    have h2 : Below Alive (node p d (Function.update ch c.val (node (some (c :: q)) none ch'))) := by
      have hb' := (hb c.val).2
      rw [hch] at h0 hb'
      exact hb.update (fun _ => Or.inr (Nat.one_le_iff_ne_zero.mpr h0)) hb'.relabel
    exact ⟨iff_of_true h1 (fun h => h0 h.1), iff_of_true h2 (not_strandsAlong_pair _ _)⟩
  | @descend p d ch c q key d' ch' it' t hch hs hc ih =>
    intro hb p' hp
    obtain rfl : p = some p' := hp
    have hne : ch c.val ≠ null := by rw [hch]; exact nofun
    obtain ⟨h1, h2⟩ := ih (hb c.val).2 (c :: q) (by rw [hch, pfx_node])
    obtain ⟨h3, h4⟩ := hc.along hb hne hs.ne_null
    rw [path_append hch]
    obtain ⟨x, l, hx⟩ := hs.path_ne_nil
    rw [hx] at h1 h2 ⊢
    rw [emptiesAlong_cons, strandsAlong_cons, h3, h4, h1, h2, not_and_or, not_or, not_and_or, not_not]
    exact ⟨or_comm, and_congr_right (fun _ => or_comm)⟩

/-- **Removing from the root**: `__node_cleanup` takes a dead child of the root
away, and only a stranded leaf remains. -/
theorem below_iff (h : Shrinks it key it') (hr : IsRoot it) (hb : Below Alive it) :
    Below Alive it' ↔ ¬ StrandsAlong (path it key) := by
  have hcl : ∀ {d : Option V} {ch : UInt8 → RadixTreeNode V} {t : RadixTreeNode V},
      Compacts (node none d ch) t → (Below Alive t ↔ ∀ b, Below Alive (ch b)) := by
    intro d ch t hc
    cases hc with
    | cleanup => exact below_cleanup_iff
  obtain ⟨_, hp, _⟩ := hr
  cases h with
  | @leaf p d ch c q v ch' _ hch h0 hc =>
    obtain rfl : p = none := hp
    have hpath := path_append (p := none) (d := d) hch []
    rw [List.append_nil, path_nil] at hpath
    rw [hpath, hcl hc]
    refine iff_of_true (fun b => ?_) (not_strandsAlong_single _)
    exact ((hb.update (b := c.val) (fun h => absurd rfl h) trivial) b).2
  | @clear p d ch c q v ch' hch h0 =>
    have hpath := path_append (p := p) (d := d) hch []
    rw [List.append_nil, path_nil] at hpath
    rw [hpath]
    refine iff_of_true ?_ (not_strandsAlong_single _)
    have hb' := (hb c.val).2
    rw [hch] at h0 hb'
    exact hb.update (fun _ => Or.inr (Nat.one_le_iff_ne_zero.mpr h0)) hb'.relabel
  | @descend p d ch c q key d' ch' it' _ hch hs hc =>
    obtain rfl : p = none := hp
    have h2 := (hs.along (hb c.val).2 (c :: q) (by rw [hch, pfx_node])).2
    rw [path_append hch, hcl hc, ← h2]
    refine ⟨?_, ?_⟩
    · intro h
      have := h c.val
      rwa [Function.update_self] at this
    · intro h b
      by_cases hbc : b = c.val
      · rw [hbc, Function.update_self]; exact h
      · rw [Function.update_of_ne hbc]; exact (hb b).2

end Shrinks

/-! ### Whole runs -/

/-- **A removal leaves a dead leaf exactly when it strands one.** -/
theorem remove_below_iff {t t' : RadixTree V} (hr : IsRoot t) (hb : Below Alive t)
    {key : List Byte} (hk : key ≠ []) {ret : Int} {o : Outcomes}
    (h : radixTreeRemove allOk t (some key) = some (ret, t', o)) :
    Below Alive t' ↔ ¬ Strands t key := by
  rcases remove_spec hr hk with ⟨t₁, h₁, hs⟩ | ⟨ret₁, h₁, _, hnone⟩
  · rw [h₁, Option.some.injEq, Prod.mk.injEq, Prod.mk.injEq] at h
    obtain ⟨_, rfl, _⟩ := h
    rw [hs.below_iff hr hb, Strands, and_iff_right hs.present]
  · rw [h₁, Option.some.injEq, Prod.mk.injEq, Prod.mk.injEq] at h
    obtain ⟨_, rfl, _⟩ := h
    refine iff_of_true hb (fun hst => ?_)
    rw [Strands, hnone] at hst
    exact absurd hst.1 (by simp)

theorem isEmpty_iff {t : RadixTree V} (hr : IsRoot t) (hb : Below Alive t) :
    radixTreeIsEmpty t = true ↔ ∀ key, key ≠ [] → find t key = none := by
  obtain ⟨hne, _, hg⟩ := hr
  cases t with
  | null => exact absurd rfl hne
  | node p d ch =>
    rw [radixTreeIsEmpty, isNull, Bool.not_false, Bool.true_and, beq_iff_eq, nodeChildren_eq_zero]
    refine ⟨?_, ?_⟩
    · intro h key hk
      cases key with
      | nil => exact absurd rfl hk
      | cons c r => rw [find_cons, h, under_null]
    · intro h b
      by_contra hb'
      obtain ⟨c, q, d', ch', rfl, hch⟩ := hg.child_of_ne hb'
      obtain ⟨key, hkey⟩ := exists_key (hg c.val).2 (hb c.val).2 ((hb c.val).1 hb')
      have := h (c :: q ++ key) (List.cons_ne_nil _ _)
      rw [List.cons_append, find_append hch] at this
      rw [this] at hkey
      exact absurd hkey (by simp)

/-- **No dead paths, if no removal strands a leaf.**  Then every leaf below the
root has data, and `radix_tree_is_empty` tells whether nothing is stored; and the
next removal leaves a dead leaf exactly when it strands one. -/
theorem radixTree_noDeadPaths (t : RadixTree V) (m : List Byte → Option V)
    (h : Run (fun t key => ¬ Strands t key) t m) :
    Below Alive t ∧ (radixTreeIsEmpty t = true ↔ ∀ key, key ≠ [] → m key = none) ∧
      ∀ key, key ≠ [] → ∀ ret t' o, radixTreeRemove allOk t (some key) = some (ret, t', o) →
        (Below Alive t' ↔ ¬ Strands t key) := by
  obtain ⟨hr, rfl, hb⟩ := h.induct (P := Below Alive) (below_noChildren _ _ _)
    (fun _ hb hg => hg.below_full (by decide) hb)
    (fun hr hb hn hs => (hs.below_iff hr hb).mpr (fun hst => hn ⟨hs.present, hst⟩))
  exact ⟨hb, isEmpty_iff hr hb, fun key hk ret t' o h => remove_below_iff hr hb hk h⟩

theorem radixTree_noDeadPaths_forkTree :
    Below Alive forkTree ∧
      (radixTreeIsEmpty forkTree = true ↔
        ∀ key, key ≠ [] → record forkCalls (fun _ => none) key = none) ∧
      ∀ key, key ≠ [] → ∀ ret t' o, radixTreeRemove allOk forkTree (some key) = some (ret, t', o) →
        (Below Alive t' ↔ ¬ Strands forkTree key) :=
  radixTree_noDeadPaths forkTree _ (forkTree_run _)

/-! ### A dead path -/

/-- Insert `a`, `aa` and `aaa`, and remove `aa`, `aaa` and `a`. -/
def deadCalls : List (List Byte × Option Nat) :=
  [([charA], some 1), ([charA, charA], some 2), ([charA, charA, charA], some 3),
    ([charA, charA], none), ([charA, charA, charA], none), ([charA], none)]

theorem deadCalls_isEmpty :
    (calls deadCalls (node none none noChildren)).map radixTreeIsEmpty = some false := by
  decide +kernel

theorem record_deadCalls (key : List Byte) : record deadCalls (fun _ => none) key = none := by
  simp only [deadCalls, record, Function.update_apply]
  split_ifs <;> simp_all

/-- Removing every key can leave a dead path: nothing is stored, and the tree is
not empty. -/
theorem radixTree_deadPath : ∃ (t : RadixTree Nat) (m : List Byte → Option Nat),
    Run (fun _ _ => True) t m ∧ ¬ Below Alive t ∧ radixTreeIsEmpty t = false ∧
      ∀ key, m key = none := by
  obtain ⟨t, ht, he⟩ := Option.map_eq_some_iff.mp deadCalls_isEmpty
  have h : Run (fun _ _ => True) t _ :=
    Run.calls deadCalls (.init rfl) (by decide) (fun _ _ _ _ => trivial) ht
  obtain ⟨hr, hf⟩ := h.inv
  refine ⟨t, _, h, fun hb => ?_, he, record_deadCalls⟩
  rw [(isEmpty_iff hr hb).mpr (fun key _ => hf ▸ record_deadCalls key)] at he
  exact absurd he (by decide)

end DataStructures.Radix
