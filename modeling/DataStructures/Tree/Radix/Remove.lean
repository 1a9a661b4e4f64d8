import DataStructures.Tree.Radix.Shape

/-!
# `__radix_tree_remove`

After a child has changed, the code at `compact_tree` cleans up the root or
merges a node with its only child, which takes a `realloc`.  `Compacts t t'` lists
the outcomes, and `Shrinks it key it'` those of a successful removal: a leaf goes, a
node with children loses its data, or a subtree shrinks.  `reallocs` is the number
of calls of `realloc`, and `remove_result` the inversion lemma, whatever they answer.

* `Compacts.good`, `Compacts.find`, `Compacts.under`: compacting loses nothing.
* `Shrinks.good`, `Shrinks.erases`: the tree stays good, and exactly `key`
  changes.
-/

namespace DataStructures.Radix

open Lib Outcomes RadixTreeNode

variable {V : Type}

/-- What `__node_merge` looks for: no data, and one child, without data. -/
def Foldable (t : RadixTreeNode V) : Prop :=
  t.data = none ∧ ∃ b, t.children b ≠ null ∧ (t.children b).data = none ∧
    ∀ j, j ≠ b → t.children j = null

/-- **What compacting does to a node.** -/
inductive Compacts : RadixTreeNode V → RadixTreeNode V → Prop
  | cleanup {d ch} : Compacts (node none d ch) (nodeCleanup (node none d ch))
  | keep {p d ch} : ¬ Foldable (node (some p) d ch) →
      Compacts (node (some p) d ch) (node (some p) d ch)
  | merge {p ch b q cch} : ch b = node (some q) none cch → (∀ j, j ≠ b → ch j = null) →
      Compacts (node (some p) none ch) (node (some (p ++ q)) none cch)

/-- **What a successful removal does to the tree.** -/
inductive Shrinks : RadixTreeNode V → List Byte → RadixTreeNode V → Prop
  | leaf {p d ch} {c : Byte} {q v ch' t} : ch c.val = node (some (c :: q)) (some v) ch' →
      nodeChildren (ch c.val) = 0 → Compacts (node p d (Function.update ch c.val null)) t →
      Shrinks (node p d ch) (c :: q) t
  | clear {p d ch} {c : Byte} {q v ch'} : ch c.val = node (some (c :: q)) (some v) ch' →
      nodeChildren (ch c.val) ≠ 0 → Shrinks (node p d ch) (c :: q)
        (node p d (Function.update ch c.val (node (some (c :: q)) none ch')))
  | descend {p d ch} {c : Byte} {q key d' ch' it' t} : ch c.val = node (some (c :: q)) d' ch' →
      Shrinks (ch c.val) key it' → Compacts (node p d (Function.update ch c.val it')) t →
      Shrinks (node p d ch) (c :: (q ++ key)) t

/-! ### Compacting -/

theorem good_cleanup {t : RadixTreeNode V} (h : Good t) : Good (nodeCleanup t) := by
  cases t with
  | null => exact h
  | node p d ch =>
    intro b
    dsimp only
    split
    · exact h b
    · split
      · exact ⟨Or.inl rfl, trivial⟩
      · exact h b

/-- A node without data and without children stores nothing. -/
theorem under_dead {t : RadixTreeNode V} (h0 : nodeChildren t = 0) (hd : t.data = none) :
    under t = fun _ => none := by
  cases t with
  | null => rfl
  | node p d ch =>
    have hch : ch = noChildren := funext (nodeChildren_eq_zero.mp h0)
    rw [data_node] at hd
    subst hch hd
    cases p with
    | none => rfl
    | some p => rw [under_noChildren, Function.update_eq_self_iff]

theorem find_cleanup (t : RadixTreeNode V) : find (nodeCleanup t) = find t := by
  funext key
  cases t with
  | null => rfl
  | node p d ch =>
    cases key with
    | nil => rfl
    | cons c r =>
      rw [nodeCleanup, find_cons, find_cons, children_node, children_node]
      split
      · rfl
      · split
        next h => rw [under_dead h.1 (Option.isNone_iff_eq_none.mp h.2)]; rfl
        next => rfl

theorem foldable_iff {t : RadixTreeNode V} : Foldable t ↔
    nodeChildren t = 1 ∧ t.data.isNone = true ∧ (firstChild t.children).data.isNone = true := by
  rw [nodeChildren_eq_one, Option.isNone_iff_eq_none, Option.isNone_iff_eq_none]
  constructor
  · rintro ⟨hd, b, hb, hbd, hj⟩
    exact ⟨⟨b, hb, hj⟩, hd, by rw [firstChild_of_single hb hj, hbd]⟩
  · rintro ⟨⟨b, hb, hj⟩, hd, hbd⟩
    rw [firstChild_of_single hb hj] at hbd
    exact ⟨hd, b, hb, hbd, hj⟩

instance (t : RadixTreeNode V) : Decidable (Foldable t) := decidable_of_iff' _ foldable_iff

/-- With a child in one slot, the others have to be empty. -/
theorem foldable_iff_of_ne {p : Option (List Byte)} {d : Option V} {ch : UInt8 → RadixTreeNode V}
    {b : UInt8} (hb : ch b ≠ null) :
    Foldable (node p d ch) ↔ d = none ∧ (ch b).data = none ∧ ∀ j, j ≠ b → ch j = null := by
  constructor
  · rintro ⟨hd, i, _, hid, hj⟩
    obtain rfl : b = i := by
      by_contra hne
      exact hb (hj b hne)
    exact ⟨hd, hid, hj⟩
  · exact fun ⟨hd, hbd, hj⟩ => ⟨hd, b, hb, hbd, hj⟩

/-- The calls of `realloc` at `compact_tree`. -/
def compactReallocs (t : RadixTreeNode V) : Nat := if t.pfx.isSome ∧ Foldable t then 1 else 0

/-- A change in the child that leaves its data is no matter. -/
theorem compactReallocs_update {p : Option (List Byte)} {d : Option V}
    {ch : UInt8 → RadixTreeNode V} {b : UInt8} {it : RadixTreeNode V} (hb : ch b ≠ null)
    (hit : it ≠ null) (hd : it.data = (ch b).data) :
    compactReallocs (node p d (Function.update ch b it)) = compactReallocs (node p d ch) := by
  have hiff : Foldable (node p d (Function.update ch b it)) ↔ Foldable (node p d ch) := by
    rw [foldable_iff_of_ne hb, foldable_iff_of_ne (b := b) (by rwa [Function.update_self]),
      Function.update_self, hd]
    refine and_congr_right (fun _ => and_congr_right (fun _ => forall₂_congr (fun j hj => ?_)))
    rw [Function.update_of_ne hj]
  rw [compactReallocs, compactReallocs, pfx_node, pfx_node]
  exact if_congr (and_congr_right (fun _ => hiff)) rfl rfl

theorem nodeMerge_of_not_foldable (o : Outcomes) {t : RadixTreeNode V} (hg : Good t)
    (hne : t ≠ null) (hf : ¬ Foldable t) : nodeMerge o t = some (0, t, o) := by
  cases t with
  | null => exact absurd rfl hne
  | node p d ch =>
    unfold nodeMerge
    by_cases h : nodeChildren (node p d ch) ≠ 1 ∨ (node p d ch).data.isSome
    · exact if_pos h
    · rw [if_neg h]
      push Not at h
      obtain ⟨h1, hd⟩ := h
      obtain ⟨b, hb, hj⟩ := nodeChildren_eq_one.mp h1
      obtain ⟨c, q, d', cch, _, hch⟩ := hg.child_of_ne hb
      rw [children_node] at hb hj ⊢
      rw [firstChild_of_single hb hj, hch]
      cases d' with
      | some w => rfl
      | none =>
        -- the child has no data either
        have hd0 : d = none := by simpa using hd
        exact absurd ((foldable_iff_of_ne hb).mpr ⟨hd0, by rw [hch]; rfl, hj⟩) hf

theorem nodeMerge_of_single (o : Outcomes) {p q : List Byte} {ch cch : UInt8 → RadixTreeNode V}
    {b : UInt8} (hb : ch b = node (some q) none cch) (hj : ∀ j, j ≠ b → ch j = null) :
    nodeMerge o (node (some p) none ch) =
      if o.first then some (0, node (some (p ++ q)) none cch, o.rest)
      else some (-1, node none none ch, o.rest) := by
  have hne : ch b ≠ null := by rw [hb]; exact nofun
  have h1 : nodeChildren (node (some p) none ch) = 1 := nodeChildren_eq_one.mpr ⟨b, hne, hj⟩
  have hcond : ¬ (nodeChildren (node (some p) none ch) ≠ 1 ∨
      (node (some p) none ch).data.isSome = true) := by
    rw [h1, data_node]
    simp
  unfold nodeMerge
  rw [if_neg hcond, children_node, firstChild_of_single hne hj, hb]
  rfl

/-- **The code at `compact_tree`**: with the memory that it needs the node is compacted, and
without it the prefix of the node is lost. -/
theorem compact_outcomes (o : Outcomes) {t : RadixTreeNode V} (hg : Good t) (hne : t ≠ null) :
    (o.Succeed (compactReallocs t) → ∃ t',
      compactTree o t = some (0, t', o.later (compactReallocs t)) ∧ Compacts t t') ∧
    (¬ o.Succeed (compactReallocs t) → t.pfx ≠ none ∧ ∃ t',
      compactTree o t = some (-1, t', o.rest) ∧ t' ≠ null ∧ t'.pfx = none) := by
  cases t with
  | null => exact absurd rfl hne
  | node p d ch =>
    rw [compactReallocs, compactTree, pfx_node]
    cases p with
    | none =>
      rw [if_neg (fun h => Bool.false_ne_true h.1), if_pos Option.isNone_none]
      exact ⟨fun _ => ⟨_, rfl, .cleanup⟩, fun ho => absurd (succeed_zero o) ho⟩
    | some p =>
      rw [if_neg (show ¬ (some p).isNone = true from Bool.false_ne_true)]
      by_cases hf : Foldable (node (some p) d ch)
      · rw [if_pos ⟨rfl, hf⟩, succeed_succ, and_iff_left (succeed_zero _)]
        obtain ⟨hd, b, hb, hbd, hj⟩ := hf
        obtain ⟨c, q, d', cch, _, hch⟩ := hg.child_of_ne hb
        rw [children_node] at hb hbd hj
        obtain rfl : d = none := hd
        obtain rfl : d' = none := by rwa [hch] at hbd
        rw [nodeMerge_of_single o hch hj]
        refine ⟨fun ho => ⟨_, if_pos ho, .merge hch hj⟩, fun ho => ?_⟩
        exact ⟨Option.some_ne_none p, _, if_neg ho, nofun, rfl⟩
      · rw [if_neg (fun h => hf h.2), nodeMerge_of_not_foldable o hg nofun hf]
        exact ⟨fun _ => ⟨_, rfl, .keep hf⟩, fun ho => absurd (succeed_zero o) ho⟩

namespace Compacts

variable {t t' : RadixTreeNode V}

theorem good (h : Compacts t t') (hg : Good t) : Good t' := by
  cases h with
  | cleanup => exact good_cleanup hg
  | keep _ => exact hg
  | @merge p ch b q cch hb _ =>
    have := (hg b).2
    rw [hb] at this
    exact this.relabel

theorem pfx_none (h : Compacts t t') (hp : t.pfx = none) : t'.pfx = none := by
  cases h with
  | cleanup => rfl
  | keep _ => exact hp
  | merge _ _ => exact absurd hp (by simp)

theorem pfx_some (h : Compacts t t') {p : List Byte} (hp : t.pfx = some p) :
    ∃ e, t'.pfx = some (p ++ e) := by
  cases h with
  | cleanup => exact absurd hp (by simp)
  | keep _ => exact ⟨[], by rw [hp, List.append_nil]⟩
  | merge _ _ =>
    rw [pfx_node, Option.some.injEq] at hp
    subst hp
    exact ⟨_, rfl⟩

theorem ne_null (h : Compacts t t') : t' ≠ null := by
  cases h with
  | cleanup => rw [nodeCleanup]; exact nofun
  | keep _ => exact nofun
  | merge _ _ => exact nofun

theorem data_eq (h : Compacts t t') : t'.data = t.data := by cases h <;> rfl

/-- Compacting a root changes nothing that is stored. -/
theorem find (h : Compacts t t') (hp : t.pfx = none) : find t' = Radix.find t := by
  cases h with
  | cleanup => exact find_cleanup _
  | keep _ => rfl
  | merge _ _ => exact absurd hp (by simp)

/-- Compacting another node changes nothing that is stored. -/
theorem under (h : Compacts t t') (hg : Good t) {p : List Byte} (hp : t.pfx = some p) :
    under t' = Radix.under t := by
  cases h with
  | cleanup => exact absurd hp (by simp)
  | keep _ => rfl
  | merge hb hj => exact (under_fold hb (hg _).1 hj).symm

end Compacts

/-! ### Removing -/

/-- From `it` to `it'` exactly `key` is erased: from what is stored below the
node when it is a root, and with the prefix in front when it is not. -/
def Erases (it : RadixTreeNode V) (key : List Byte) (it' : RadixTreeNode V) : Prop :=
  (it.pfx = none → find it' = Function.update (find it) key none) ∧
    ∀ p, it.pfx = some p → under it' = Function.update (under it) (p ++ key) none

theorem erases_of_find {it it' : RadixTreeNode V} {key : List Byte} (hp : it'.pfx = it.pfx)
    (hf : find it' = Function.update (find it) key none) : Erases it key it' :=
  ⟨fun _ => hf, fun _ hs => under_update hs (hp.trans hs) hf⟩

/-- Compacting afterwards. -/
theorem Compacts.erases {it t t' : RadixTreeNode V} {key : List Byte} (hc : Compacts t t')
    (hg : Good t) (hp : t.pfx = it.pfx) (h : Erases it key t) : Erases it key t' :=
  ⟨fun hn => (hc.find (hp.trans hn)).trans (h.1 hn),
    fun p hs => (hc.under hg (hp.trans hs)).trans (h.2 p hs)⟩

namespace Shrinks

variable {it it' : RadixTreeNode V} {key : List Byte}

theorem ne_null (h : Shrinks it key it') : it' ≠ null := by
  cases h with
  | leaf _ _ hc => exact hc.ne_null
  | clear _ _ => exact nofun
  | descend _ _ hc => exact hc.ne_null

theorem pfx_none (h : Shrinks it key it') (hp : it.pfx = none) : it'.pfx = none := by
  cases h with
  | leaf _ _ hc => exact hc.pfx_none hp
  | clear _ _ => exact hp
  | descend _ _ hc => exact hc.pfx_none hp

theorem pfx_some (h : Shrinks it key it') {p : List Byte} (hp : it.pfx = some p) :
    ∃ e, it'.pfx = some (p ++ e) := by
  cases h with
  | leaf _ _ hc => exact hc.pfx_some hp
  | clear _ _ => exact ⟨[], by rw [pfx_node, List.append_nil]; exact hp⟩
  | descend _ _ hc => exact hc.pfx_some hp

theorem data_eq (h : Shrinks it key it') : it'.data = it.data := by
  cases h with
  | leaf _ _ hc => exact hc.data_eq
  | clear _ _ => rfl
  | descend _ _ hc => exact hc.data_eq

/-- What a child has become still fits its slot. -/
theorem fits {d : Option V} {c : Byte} {q key : List Byte} {ch : UInt8 → RadixTreeNode V}
    {it' : RadixTreeNode V} (h : Shrinks (node (some (c :: q)) d ch) key it') : Fits c.val it' := by
  obtain ⟨e, he⟩ := h.pfx_some rfl
  exact Or.inr ⟨c, q ++ e, he, rfl⟩

/-- What has happened in the child of a good node, the compacting apart. -/
theorem good_update {p : Option (List Byte)} {d d' : Option V} {c : Byte} {q key : List Byte}
    {ch ch' : UInt8 → RadixTreeNode V} {it' : RadixTreeNode V} (hg : Good (node p d ch))
    (hch : ch c.val = node (some (c :: q)) d' ch') (h : Shrinks (ch c.val) key it')
    (hg' : Good it') : Good (node p d (Function.update ch c.val it')) :=
  hg.update (by rw [hch] at h; exact h.fits) hg'

/-- **The tree stays good.** -/
theorem good (h : Shrinks it key it') (hg : Good it) : Good it' := by
  induction h with
  | leaf _ _ hc => exact hc.good (hg.update (Or.inl rfl) good_null)
  | @clear p d ch c q v ch' hch _ =>
    have hg' := (hg c.val).2
    rw [hch] at hg'
    exact hg.update (fits_cons _ _ _ _) hg'.relabel
  | @descend p d ch c q key d' ch' it' t hch hs hc ih =>
    exact hc.good (good_update hg hch hs (ih (hg c.val).2))

/-- **The key was stored before.** -/
theorem present (h : Shrinks it key it') : (Radix.find it key).isSome := by
  induction h with
  | leaf hch _ _ =>
    rw [find_child hch]
    rfl
  | clear hch _ =>
    rw [find_child hch]
    rfl
  | descend hch _ _ ih =>
    rw [find_append hch]
    exact ih

/-- **Exactly `key` changes.** -/
theorem erases (h : Shrinks it key it') (hg : Good it) : Erases it key it' := by
  induction h with
  | @leaf p d ch c q v ch' t hch h0 hc =>
    refine hc.erases (hg.update (Or.inl rfl) good_null) rfl (erases_of_find rfl (find_update ?_))
    have hno : ch' = noChildren := by
      rw [hch, nodeChildren_eq_zero] at h0
      exact funext h0
    rw [hch, hno, under_noChildren, Function.update_idem, Function.update_eq_self_iff.mpr rfl]
    rfl
  | @clear p d ch c q v ch' hch _ =>
    refine erases_of_find rfl (find_update ?_)
    rw [hch]
    exact under_setData (c :: q) (some v) none ch'
  | @descend p d ch c q key d' ch' it' t hch hs hc ih =>
    have hg' := (hg c.val).2
    refine hc.erases (good_update hg hch hs (hs.good hg')) rfl
      (erases_of_find rfl (find_update ?_))
    exact (ih hg').2 (c :: q) (by rw [hch, pfx_node])

end Shrinks

/-! ### Memory -/

/-- The calls of `realloc` that the removal of a key in the tree makes, one for each node above
the key that is merged with its child. -/
def reallocs : RadixTreeNode V → List Byte → Nat
  | .null, _ => 0
  | .node _ _ _, [] => 0
  | .node p d ch, c :: r =>
      match (ch c.val).pfx.bind (c :: r).dropPrefix? with
      | none => 0
      | some [] =>
          if nodeChildren (ch c.val) = 0 then
            compactReallocs (.node p d (Function.update ch c.val .null))
          else 0
      | some (x :: s) => reallocs (ch c.val) (x :: s) + compactReallocs (.node p d ch)

section Reallocs

variable {p : Option (List Byte)} {d d' : Option V} {ch ch' : UInt8 → RadixTreeNode V} {c : Byte}
  {q : List Byte}

theorem reallocs_child (hch : ch c.val = node (some (c :: q)) d' ch') :
    reallocs (node p d ch) (c :: q) =
      if nodeChildren (ch c.val) = 0 then compactReallocs (node p d (Function.update ch c.val null))
      else 0 := by
  have hd : (ch c.val).pfx.bind (c :: q).dropPrefix? = some [] := by
    have h := dropPrefix?_append_self (c :: q) []
    rw [List.append_nil] at h
    rw [hch]
    exact h
  rw [reallocs, hd]

theorem reallocs_append (hch : ch c.val = node (some (c :: q)) d' ch') (x : Byte) (s : List Byte) :
    reallocs (node p d ch) (c :: (q ++ x :: s)) =
      reallocs (ch c.val) (x :: s) + compactReallocs (node p d ch) := by
  have hd : (ch c.val).pfx.bind (c :: (q ++ x :: s)).dropPrefix? = some (x :: s) := by
    rw [hch]
    exact dropPrefix?_append_self (c :: q) (x :: s)
  rw [reallocs, hd]

end Reallocs

/-- Some node below has no prefix. -/
inductive Unnamed : RadixTreeNode V → Prop
  | here {t b} : t.children b ≠ null → (t.children b).pfx = none → Unnamed t
  | deeper {t b} : Unnamed (t.children b) → Unnamed t

/-- A node has lost its prefix, or one below it has none. -/
def Loses (it it' : RadixTreeNode V) : Prop :=
  it.pfx ≠ none ∧ it' ≠ null ∧ it'.pfx = none ∨ Unnamed it'

/-- Below a node whose child has lost a prefix. -/
theorem Loses.update {it it' : RadixTreeNode V} (h : Loses it it') (p : Option (List Byte))
    (d : Option V) (ch : UInt8 → RadixTreeNode V) (b : UInt8) :
    Unnamed (node p d (Function.update ch b it')) := by
  have hb : (node p d (Function.update ch b it')).children b = it' := Function.update_self ..
  rcases h with ⟨-, hne, hp⟩ | hu
  · exact .here (b := b) (by rwa [hb]) (by rwa [hb])
  · exact .deeper (b := b) (by rwa [hb])

/-- **What a call comes to**: it is carried out, refused because the key is not there, or a
`realloc` fails, and a prefix is lost. -/
inductive RemoveResult (o : Outcomes) (it : RadixTreeNode V) (key : List Byte) :
    Int → RadixTreeNode V → Outcomes → Prop
  | done {it'} : o.Succeed (reallocs it key) → Shrinks it key it' →
      RemoveResult o it key 0 it' (o.later (reallocs it key))
  | refused {ret} : ret < 0 → find it key = none → RemoveResult o it key ret it o
  | failed {ret it' o'} : ret < 0 → ¬ o.Succeed (reallocs it key) → (find it key).isSome →
      Loses it it' → RemoveResult o it key ret it' o'

/-! ### The code -/

/-- **The key ends at the child**: the child goes if it has no children, and else
loses its datum. -/
theorem remove_here {p : Option (List Byte)} {d d' : Option V} {ch ch' : UInt8 → RadixTreeNode V}
    {c : Byte} {u : List Byte} (o : Outcomes) (hg : Good (node p d ch))
    (hch : ch c.val = node (some (c :: u)) d' ch')
    (hl : commonPrefix (c :: u) (c :: u) = u.length + 1) :
    ∃ ret it' o', radixTreeRemoveHelper o (c :: u) (node p d ch) = some (ret, it', o') ∧
      RemoveResult o (node p d ch) (c :: u) ret it' o' := by
  have hre := reallocs_child (p := p) (d := d) hch
  have hfind := find_child (p := p) (d := d) hch
  rw [radixTreeRemoveHelper, firstByte, hch]
  simp only [hl, List.length_cons]
  rw [if_neg (Nat.succ_ne_zero _), if_neg (Nat.lt_irrefl _), if_pos trivial]
  cases d' with
  | none => exact ⟨-3, _, o, rfl, .refused (by decide) hfind⟩
  | some v =>
    simp only [Option.isNone_some, Bool.false_eq_true, if_false]
    by_cases h0 : nodeChildren (node (some (c :: u)) (some v) ch') = 0
    · rw [if_pos h0]
      rw [if_pos (hch ▸ h0)] at hre
      have hgood : Good (node p d (Function.update ch c.val null)) := hg.update (Or.inl rfl) good_null
      obtain ⟨hok, hno⟩ := compact_outcomes o hgood nofun
      rw [← hre] at hok hno
      by_cases ho : o.Succeed (reallocs (node p d ch) (c :: u))
      · obtain ⟨t, ht, hc⟩ := hok ho
        exact ⟨0, t, _, ht, .done ho (.leaf hch (hch ▸ h0) hc)⟩
      · obtain ⟨hp, t, ht, hne, hpt⟩ := hno ho
        exact ⟨-1, t, _, ht, .failed (by decide) ho (by rw [hfind]; rfl) (Or.inl ⟨hp, hne, hpt⟩)⟩
    · rw [if_neg h0]
      rw [if_neg (hch ▸ h0)] at hre
      have hdone := RemoveResult.done (hre ▸ succeed_zero o) (.clear (p := p) (d := d) hch (hch ▸ h0))
      rw [hre, later_zero] at hdone
      exact ⟨0, _, o, rfl, hdone⟩

/-- **The key goes on below the child**: what has been done there is followed by compacting, if it
has succeeded. -/
theorem remove_below {p : Option (List Byte)} {d d' : Option V} {ch ch' : UInt8 → RadixTreeNode V}
    {c y : Byte} {u b : List Byte} (o : Outcomes) (hg : Good (node p d ch))
    (hch : ch c.val = node (some (c :: u)) d' ch')
    (hl : commonPrefix (c :: u) (c :: (u ++ y :: b)) = u.length + 1)
    (hbelow : ∃ ret it' o', radixTreeRemoveHelper o (y :: b) (ch c.val) = some (ret, it', o') ∧
      RemoveResult o (ch c.val) (y :: b) ret it' o') :
    ∃ ret it' o', radixTreeRemoveHelper o (c :: (u ++ y :: b)) (node p d ch) = some (ret, it', o') ∧
      RemoveResult o (node p d ch) (c :: (u ++ y :: b)) ret it' o' := by
  have hne : ch c.val ≠ null := by rw [hch]; exact nofun
  have hfind := find_append (p := p) (d := d) hch (y :: b)
  have hre := reallocs_append (p := p) (d := d) hch y b
  obtain ⟨ret, it', o', hr, hres⟩ := hbelow
  rw [radixTreeRemoveHelper, firstByte]
  rw [hch] at hr ⊢
  simp only [hl, List.length_cons, List.length_append]
  rw [if_neg (Nat.succ_ne_zero _), if_neg (Nat.lt_irrefl _), if_neg (by simp),
    List.drop_succ_cons, List.drop_left, hr]
  cases hres with
  | done ho hs =>
    obtain ⟨hok, hno⟩ := compact_outcomes (o.later (reallocs (ch c.val) (y :: b)))
      (Shrinks.good_update hg hch hs (hs.good (hg c.val).2)) nofun
    rw [compactReallocs_update hne hs.ne_null hs.data_eq] at hok hno
    by_cases ho' : (o.later (reallocs (ch c.val) (y :: b))).Succeed (compactReallocs (node p d ch))
    · obtain ⟨t, ht, hc⟩ := hok ho'
      have hdone := RemoveResult.done (hre ▸ succeed_add.mpr ⟨ho, ho'⟩) (.descend hch hs hc)
      rw [hre, ← later_later] at hdone
      exact ⟨0, t, _, ht, hdone⟩
    · obtain ⟨hp, t, ht, htne, hpt⟩ := hno ho'
      refine ⟨-1, t, _, ht, .failed (by decide) ?_ (hfind ▸ hs.present) (Or.inl ⟨hp, htne, hpt⟩)⟩
      rw [hre, succeed_add]
      exact fun h => ho' h.2
  | refused hneg hnone =>
    refine ⟨-4, node p d ch, o, ?_, .refused (by decide) (hfind.trans hnone)⟩
    simp only [ne_eq, Int.ne_of_lt hneg, not_false_eq_true, if_true]
    rw [Function.update_eq_self]
  | failed hneg ho hsome hlost =>
    refine ⟨-4, _, o', if_pos (Int.ne_of_lt hneg), .failed (by decide) ?_ (hfind ▸ hsome)
      (Or.inr (hlost.update p d ch c.val))⟩
    rw [hre, succeed_add]
    exact fun h => ho h.1

/-- **`__radix_tree_remove`**, whatever `realloc` answers. -/
theorem remove_result : ∀ (it : RadixTreeNode V) (key : List Byte) (o : Outcomes), key ≠ [] →
    Good it → it ≠ null →
    ∃ ret it' o', radixTreeRemoveHelper o key it = some (ret, it', o') ∧
      RemoveResult o it key ret it' o' := by
  intro it
  induction it with
  | null => intro key o _ _ hne; exact absurd rfl hne
  | node p d ch ih =>
    intro key o hk hg _
    cases key with
    | nil => exact absurd rfl hk
    | cons c r =>
      rcases hg.child c with hch | ⟨q, d', ch', hch⟩
      · refine ⟨-1, node p d ch, o, ?_, .refused (by decide) ?_⟩
        · rw [radixTreeRemoveHelper, firstByte, hch]
        · rw [find_cons, children_node, hch, under_null]
      · obtain ⟨u, a, b, rfl, rfl, hl, hd⟩ := commonPrefix_split c q r
        cases a with
        | cons x a =>
          refine ⟨-2, node p d ch, o, ?_, .refused (by decide) ?_⟩
          · rw [radixTreeRemoveHelper, firstByte, hch]
            simp only [hl, List.length_cons, List.length_append]
            rw [if_neg (Nat.succ_ne_zero _), if_pos (by simp)]
          · rw [find_cons, children_node, hch, under_fork hd]
        | nil =>
          rw [List.append_nil] at hch hl
          cases b with
          | nil =>
            rw [List.append_nil] at hl ⊢
            exact remove_here o hg hch hl
          | cons y b =>
            have hne : ch c.val ≠ null := by rw [hch]; exact nofun
            exact remove_below o hg hch hl
              (ih c.val (y :: b) o (List.cons_ne_nil _ _) (hg c.val).2 hne)

end DataStructures.Radix
