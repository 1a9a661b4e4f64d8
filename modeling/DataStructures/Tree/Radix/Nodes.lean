import DataStructures.Tree.Radix.Run

/-!
# Properties of all nodes

`Below P t`: every node below `t` satisfies `P`.  The property in question is
`Full k`: the node has data or at least `k` children.  `Kept`, with two, is what
insertions establish, `Alive`, with one, is what makes a subtree worth keeping:
`exists_key`.

`Grows.below_full`: insertions keep either.
-/

namespace DataStructures.Radix

open Lib Outcomes RadixTreeNode

variable {V : Type}

/-- Every node below `t` satisfies `P`. -/
def Below (P : RadixTreeNode V → Prop) : RadixTreeNode V → Prop
  | .null => True
  | .node _ _ ch => ∀ b, (ch b ≠ null → P (ch b)) ∧ Below P (ch b)

/-- The node has data or at least `k` children. -/
def Full (k : Nat) (t : RadixTreeNode V) : Prop := t.data.isSome ∨ k ≤ nodeChildren t

/-- The node has data or at least two children. -/
abbrev Kept (t : RadixTreeNode V) : Prop := Full 2 t

/-- The node has data or a child. -/
abbrev Alive (t : RadixTreeNode V) : Prop := Full 1 t

theorem Full.alive {t : RadixTreeNode V} (h : Kept t) : Alive t := h.imp_right (fun h => by omega)

theorem not_alive_iff {t : RadixTreeNode V} : ¬ Alive t ↔ t.data = none ∧ nodeChildren t = 0 := by
  rw [Alive, Full, not_or, Option.not_isSome_iff_eq_none, Nat.not_le, Nat.lt_one_iff]

theorem alive_of_child {t : RadixTreeNode V} {b : UInt8} (h : t.children b ≠ null) : Alive t :=
  Or.inr (Nat.one_le_iff_ne_zero.mpr (fun h0 => h (nodeChildren_eq_zero.mp h0 b)))

/-! ### Properties of all nodes -/

theorem Below.mono {P Q : RadixTreeNode V → Prop} (hPQ : ∀ t, P t → Q t) :
    ∀ {t : RadixTreeNode V}, Below P t → Below Q t := by
  intro t
  induction t with
  | null => exact fun _ => trivial
  | node p d ch ih => exact fun h b => ⟨fun hb => hPQ _ ((h b).1 hb), ih b (h b).2⟩

theorem below_noChildren (P : RadixTreeNode V → Prop) (p : Option (List Byte)) (d : Option V) :
    Below P (node p d noChildren) :=
  fun _ => ⟨fun h => absurd rfl h, trivial⟩

theorem Below.relabel {P : RadixTreeNode V → Prop} {p p' : Option (List Byte)} {d d' : Option V}
    {ch : UInt8 → RadixTreeNode V} (h : Below P (node p d ch)) : Below P (node p' d' ch) := h

theorem Below.update {P : RadixTreeNode V → Prop} {p : Option (List Byte)} {d : Option V}
    {ch : UInt8 → RadixTreeNode V} (h : Below P (node p d ch)) {b : UInt8} {t : RadixTreeNode V}
    (hP : t ≠ null → P t) (ht : Below P t) : Below P (node p d (Function.update ch b t)) := by
  intro j
  by_cases hj : j = b
  · subst hj
    rw [Function.update_self]
    exact ⟨hP, ht⟩
  · rw [Function.update_of_ne hj]
    exact h j

theorem below_only {P : RadixTreeNode V → Prop} {p : Option (List Byte)} {d : Option V} {x : Byte}
    {t : RadixTreeNode V} (hP : t ≠ null → P t) (ht : Below P t) :
    Below P (node p d (only x t)) :=
  (below_noChildren P p d).update hP ht

/-- **A node that leads to data stores a key.**  By induction on the tree, into
some child where there is no data. -/
theorem exists_key : ∀ {t : RadixTreeNode V}, Good t → Below Alive t → Alive t →
    ∃ key, (find t key).isSome := by
  intro t
  induction t with
  | null =>
    rintro _ _ (h | h)
    · exact absurd h (by simp)
    · exact absurd (nodeChildren_eq_zero.mpr (fun _ => rfl)) (Nat.one_le_iff_ne_zero.mp h)
  | node p d ch ih =>
    rintro hg hb (h | h)
    · exact ⟨[], h⟩
    · rw [Nat.one_le_iff_ne_zero, Ne, nodeChildren_eq_zero, not_forall] at h
      obtain ⟨b, hne⟩ := h
      obtain ⟨c, q, d', ch', rfl, hch⟩ := hg.child_of_ne hne
      obtain ⟨key, hkey⟩ := ih c.val (hg c.val).2 (hb c.val).2 ((hb c.val).1 hne)
      refine ⟨c :: q ++ key, ?_⟩
      rw [List.cons_append, find_append hch]
      exact hkey

/-! ### Insertions -/

namespace Grows

variable {v : V} {it it' : RadixTreeNode V} {key : List Byte}

/-- No child goes away. -/
theorem children_ne (h : Grows v it key it') {i : UInt8} (hi : it.children i ≠ null) :
    it'.children i ≠ null := by
  have key : ∀ {p : Option (List Byte)} {d : Option V} {ch : UInt8 → RadixTreeNode V} {b : UInt8}
      {t : RadixTreeNode V}, t ≠ null → ch i ≠ null →
      (node p d (Function.update ch b t)).children i ≠ null := by
    intro p d ch b t ht hi
    rw [children_node]
    by_cases hb : i = b
    · rw [hb, Function.update_self]; exact ht
    · rw [Function.update_of_ne hb]; exact hi
  cases h with
  | create _ => exact key nofun hi
  | fill _ => exact key nofun hi
  | split _ => exact key nofun hi
  | fork _ _ => exact key nofun hi
  | descend _ hg => exact key hg.ne_null hi

theorem full (h : Grows v it key it') {k : Nat} (hk : Full k it) : Full k it' := by
  refine hk.imp (fun hd => h.data_eq ▸ hd) (fun hc => le_trans hc ?_)
  exact List.countP_mono_left (fun i _ hi => not_isNull_iff.mpr (h.children_ne (not_isNull_iff.mp hi)))

/-- **Insertions leave no node with less data or children than required.** -/
theorem below_full (h : Grows v it key it') {k : Nat} (hk : k ≤ 2) (hb : Below (Full k) it) :
    Below (Full k) it' := by
  induction h with
  | create _ => exact hb.update (fun _ => Or.inl rfl) (below_noChildren _ _ _)
  | @fill p d ch c q ch' hch =>
    have hb' := (hb c.val).2
    rw [hch] at hb'
    exact hb.update (fun _ => Or.inl rfl) hb'.relabel
  | @split p d ch c x u a d' ch' hch =>
    have hb' := hb c.val
    rw [hch] at hb'
    exact hb.update (fun _ => Or.inl rfl) (below_only (fun _ => hb'.1 nofun) hb'.2.relabel)
  | @fork p d ch c x y u a b d' ch' hxy hch =>
    have hb' := hb c.val
    rw [hch] at hb'
    have hne : x.val ≠ y.val := fun h => hxy (Subtype.ext h)
    have hx : Below (Full k) (node (some (c :: u)) none (only x (node (some (x :: a)) d' ch'))) :=
      below_only (fun _ => hb'.1 nofun) hb'.2.relabel
    refine hb.update (fun _ => Or.inr (hk.trans ?_))
      (hx.update (fun _ => Or.inl rfl) (below_noChildren _ _ _))
    refine two_le_nodeChildren.mpr ⟨x.val, y.val, hne, ?_, ?_⟩
    · rw [children_node, Function.update_of_ne hne, only_self]
      exact nofun
    · rw [children_node, Function.update_self]
      exact nofun
  | @descend p d ch c q key d' ch' it' hch hg ih =>
    have hb' := hb c.val
    rw [hch] at hb'
    exact hb.update (fun _ => hg.full (hb'.1 nofun)) (ih hb'.2)

end Grows

end DataStructures.Radix
