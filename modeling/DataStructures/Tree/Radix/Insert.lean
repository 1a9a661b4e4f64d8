import DataStructures.Tree.Radix.Shape

/-!
# `__radix_tree_insert`

`Grows v it key it'` lists what a successful insertion below `it` can do: create
a child, give data to a node that had none, split a node at the end of the key,
split it where the key forks off, or descend; `Splits it it'` what one can do that
fails.  `insert_result` is the inversion lemma of the loop, whatever the allocations
answer; the invariants follow from `Grows` and `Splits`, by induction on them.

* `Grows.good`, `Grows.find`: the tree stays good, and exactly `key` changes.
* `Grows.absent`: `key` was not stored before.
* `Splits.good`, `Splits.find`: the tree stays good, and stores what it did.
-/

namespace DataStructures.Radix

open Lib Outcomes RadixTreeNode

variable {V : Type}

/-- A node whose only child is `t`, in the slot of `x`. -/
def only (x : Byte) (t : RadixTreeNode V) : UInt8 → RadixTreeNode V :=
  Function.update noChildren x.val t

/-- **What a successful insertion does to the tree.** -/
inductive Grows (v : V) : RadixTreeNode V → List Byte → RadixTreeNode V → Prop
  | create {p d ch} {c : Byte} {r} : ch c.val = null →
      Grows v (node p d ch) (c :: r)
        (node p d (Function.update ch c.val (node (some (c :: r)) (some v) noChildren)))
  | fill {p d ch} {c : Byte} {q ch'} : ch c.val = node (some (c :: q)) none ch' →
      Grows v (node p d ch) (c :: q)
        (node p d (Function.update ch c.val (node (some (c :: q)) (some v) ch')))
  | split {p d ch} {c x : Byte} {u a d' ch'} : ch c.val = node (some (c :: (u ++ x :: a))) d' ch' →
      Grows v (node p d ch) (c :: u)
        (node p d (Function.update ch c.val
          (node (some (c :: u)) (some v) (only x (node (some (x :: a)) d' ch')))))
  | fork {p d ch} {c x y : Byte} {u a b d' ch'} : x ≠ y →
      ch c.val = node (some (c :: (u ++ x :: a))) d' ch' →
      Grows v (node p d ch) (c :: (u ++ y :: b))
        (node p d (Function.update ch c.val (node (some (c :: u)) none
          (Function.update (only x (node (some (x :: a)) d' ch')) y.val
            (node (some (y :: b)) (some v) noChildren)))))
  | descend {p d ch} {c : Byte} {q key d' ch' it'} : ch c.val = node (some (c :: q)) d' ch' →
      Grows v (node (some (c :: q)) d' ch') key it' →
      Grows v (node p d ch) (c :: (q ++ key)) (node p d (Function.update ch c.val it'))

/-- **What a failed insertion leaves behind**: the tree as it was, or with one of its nodes split. -/
inductive Splits : RadixTreeNode V → RadixTreeNode V → Prop
  | keep {it} : Splits it it
  | split {p d ch} {c x : Byte} {u a d' ch'} : ch c.val = node (some (c :: (u ++ x :: a))) d' ch' →
      Splits (node p d ch) (node p d (Function.update ch c.val
        (node (some (c :: u)) none (only x (node (some (x :: a)) d' ch')))))
  | descend {p d ch} {c : Byte} {q d' ch' it'} : ch c.val = node (some (c :: q)) d' ch' →
      Splits (node (some (c :: q)) d' ch') it' →
      Splits (node p d ch) (node p d (Function.update ch c.val it'))

/-- **What a call comes to**: it is carried out, refused because the key is there, or fails because of an
allocation. -/
inductive InsertResult (v : V) (o : Outcomes) (it : RadixTreeNode V) (key : List Byte) :
    Int → RadixTreeNode V → Outcomes → Prop
  | done {it' o'} : Grows v it key it' → (o = allOk → o' = allOk) → InsertResult v o it key 0 it' o'
  | refused {ret} : ret < 0 → (find it key).isSome → InsertResult v o it key ret it o
  | failed {ret it' o'} : ret < 0 → o ≠ allOk → Splits it it' → InsertResult v o it key ret it' o'

/-! ### The code -/

theorem only_ne {x : Byte} {t : RadixTreeNode V} {j : UInt8} (hj : j ≠ x.val) : only x t j = null :=
  Function.update_of_ne hj _ _

@[simp] theorem only_self (x : Byte) (t : RadixTreeNode V) : only x t x.val = t :=
  Function.update_self _ _ _

theorem nodeCreate_allOk (p : Option (List Byte)) (d : Option V) :
    nodeCreate allOk p d = (node p d noChildren, allOk) := by
  simp [nodeCreate]

/-- A node is made, or an allocation has failed. -/
theorem nodeCreate_cases (o : Outcomes) (p : Option (List Byte)) (d : Option V) :
    ∃ o', (nodeCreate o p d = (node p d noChildren, o') ∧ (o = allOk → o' = allOk)) ∨
      (nodeCreate o p d = (null, o') ∧ o ≠ allOk) := by
  by_cases ho : o = allOk
  · rw [ho]
    exact ⟨allOk, Or.inl ⟨nodeCreate_allOk p d, id⟩⟩
  · rw [nodeCreate]
    split
    · exact ⟨_, Or.inr ⟨rfl, ho⟩⟩
    · split
      · exact ⟨_, Or.inr ⟨rfl, ho⟩⟩
      · split
        · exact ⟨_, Or.inr ⟨rfl, ho⟩⟩
        · exact ⟨_, Or.inl ⟨rfl, fun h => absurd h ho⟩⟩

theorem nodeSplit_cases (o : Outcomes) (c x : Byte) (u a : List Byte) (d : Option V)
    (ch : UInt8 → RadixTreeNode V) :
    ∃ o', (nodeSplit o (node (some (c :: (u ++ x :: a))) d ch) (u.length + 1) =
        some (0, node (some (c :: u)) none (only x (node (some (x :: a)) d ch)), o') ∧
        (o = allOk → o' = allOk)) ∨
      (nodeSplit o (node (some (c :: (u ++ x :: a))) d ch) (u.length + 1) =
        some (-1, node (some (c :: (u ++ x :: a))) d ch, o') ∧ o ≠ allOk) := by
  obtain ⟨o', ⟨hr, ho⟩ | ⟨hr, ho⟩⟩ := nodeCreate_cases (V := V) o (some (x :: a)) none
  · refine ⟨o', Or.inl ⟨?_, ho⟩⟩
    simp only [nodeSplit, List.drop_succ_cons, List.drop_left, List.take_succ_cons, List.take_left, hr]
    rfl
  · refine ⟨o', Or.inr ⟨?_, ho⟩⟩
    simp only [nodeSplit, List.drop_succ_cons, List.drop_left, hr]

/-- **There is no child for the key.** -/
theorem insert_create {p : Option (List Byte)} {d : Option V} {ch : UInt8 → RadixTreeNode V}
    {c : Byte} (o : Outcomes) (r : List Byte) (v : V) (hc : ch c.val = null) :
    ∃ o', (radixTreeInsertHelper o (node p d ch) (c :: r) v = some (0,
        node p d (Function.update ch c.val (node (some (c :: r)) (some v) noChildren)), o') ∧
        (o = allOk → o' = allOk)) ∨
      (radixTreeInsertHelper o (node p d ch) (c :: r) v = some (-1, node p d ch, o') ∧ o ≠ allOk) := by
  obtain ⟨o', ⟨hr, ho⟩ | ⟨hr, ho⟩⟩ := nodeCreate_cases o (some (c :: r)) (some v)
  · refine ⟨o', Or.inl ⟨?_, ho⟩⟩
    rw [radixTreeInsertHelper, hc]
    simp only [hr]
  · refine ⟨o', Or.inr ⟨?_, ho⟩⟩
    rw [radixTreeInsertHelper, hc]
    simp only [hr]

/-- **The key leaves the prefix of the child before its end**: the child is split, so
it has no data and no child for the rest of the key. -/
theorem insert_split {p : Option (List Byte)} {d d' : Option V} {ch ch' : UInt8 → RadixTreeNode V}
    {c x : Byte} {u a b : List Byte} (o : Outcomes) (v : V)
    (hch : ch c.val = node (some (c :: (u ++ x :: a))) d' ch')
    (hl : commonPrefix (c :: (u ++ x :: a)) (c :: (u ++ b)) = u.length + 1)
    (hd : ∀ x' a' y b', x :: a = x' :: a' → b = y :: b' → x' ≠ y) :
    ∃ ret it' o', radixTreeInsertHelper o (node p d ch) (c :: (u ++ b)) v = some (ret, it', o') ∧
      InsertResult v o (node p d ch) (c :: (u ++ b)) ret it' o' := by
  rw [radixTreeInsertHelper, hch]
  simp only [hl, List.length_cons, List.length_append]
  rw [dif_neg (Nat.succ_ne_zero _), if_pos (by simp)]
  obtain ⟨o₁, ⟨hs, ho⟩ | ⟨hs, ho⟩⟩ := nodeSplit_cases o c x u a d' ch'
  · rw [hs]
    cases b with
    | nil =>
      rw [List.append_nil]
      -- the node at the end of the key has just been made, without data
      by_cases hf : o₁.first = true
      · refine ⟨0, _, o₁.rest, by simp [hf], .done (.split hch) (fun h => ?_)⟩
        rw [ho h, rest_allOk]
      · refine ⟨-3, _, o₁.rest, by simp [hf], .failed (by decide) (fun h => hf ?_) (.split hch)⟩
        rw [ho h, first_allOk]
    | cons y b =>
      have hxy : x ≠ y := hd x a y b rfl rfl
      have hy : only x (node (some (x :: a)) d' ch') y.val = null :=
        only_ne (fun h => hxy (Subtype.ext h).symm)
      obtain ⟨o₂, ⟨hr, ho₂⟩ | ⟨hr, ho₂⟩⟩ :=
        insert_create (p := some (c :: u)) (d := none) o₁ b v hy
      · exact ⟨0, _, o₂, by simp [hr], .done (.fork hxy hch) (fun h => ho₂ (ho h))⟩
      · exact ⟨-1, _, o₂, by simp [hr], .failed (by decide) (fun h => ho₂ (ho h)) (.split hch)⟩
  · have hself : Function.update ch c.val (node (some (c :: (u ++ x :: a))) d' ch') = ch := by
      rw [← hch, Function.update_eq_self]
    rw [hs]
    exact ⟨-2, node p d ch, o₁, by simp [hself], .failed (by decide) ho .keep⟩

/-- **The key ends at the child**: the child takes the datum, if it has none. -/
theorem insert_fill {p : Option (List Byte)} {d d' : Option V} {ch ch' : UInt8 → RadixTreeNode V}
    {c : Byte} {u : List Byte} (o : Outcomes) (v : V) (hch : ch c.val = node (some (c :: u)) d' ch')
    (hl : commonPrefix (c :: u) (c :: u) = u.length + 1) :
    ∃ ret it' o', radixTreeInsertHelper o (node p d ch) (c :: u) v = some (ret, it', o') ∧
      InsertResult v o (node p d ch) (c :: u) ret it' o' := by
  rw [radixTreeInsertHelper, hch]
  simp only [hl, List.length_cons]
  rw [dif_neg (Nat.succ_ne_zero _), if_neg (Nat.lt_irrefl _)]
  have hself : Function.update ch c.val (node (some (c :: u)) d' ch') = ch := by
    rw [← hch, Function.update_eq_self]
  cases d' with
  | none =>
    by_cases hf : o.first = true
    · refine ⟨0, _, o.rest, by simp [hf], .done (.fill hch) (fun h => ?_)⟩
      rw [h, rest_allOk]
    · refine ⟨-3, node p d ch, o.rest, by simp [hf, hself], .failed (by decide) (fun h => hf ?_) .keep⟩
      rw [h, first_allOk]
  | some w =>
    refine ⟨-3, node p d ch, o, by simp [hself], .refused (by decide) ?_⟩
    rw [find_child hch]
    rfl

/-- **The loop of `__radix_tree_insert`**, whatever the allocations answer. -/
theorem insert_result (v : V) : ∀ (n : Nat) (key : List Byte) (it : RadixTreeNode V) (o : Outcomes),
    key.length ≤ n → key ≠ [] → Good it → it ≠ null →
    ∃ ret it' o', radixTreeInsertHelper o it key v = some (ret, it', o') ∧
      InsertResult v o it key ret it' o' := by
  intro n
  induction n with
  | zero =>
    intro key it o hn hk
    exact absurd (List.length_eq_zero_iff.mp (Nat.le_zero.mp hn)) hk
  | succ n ih =>
    intro key it o hn hk hg hne
    cases key with
    | nil => exact absurd rfl hk
    | cons c r =>
      cases it with
      | null => exact absurd rfl hne
      | node p d ch =>
        rcases hg.child c with hch | ⟨q, d', ch', hch⟩
        · obtain ⟨o', ⟨hr, ho⟩ | ⟨hr, ho⟩⟩ := insert_create (p := p) (d := d) o r v hch
          · exact ⟨0, _, o', hr, .done (.create hch) ho⟩
          · exact ⟨-1, _, o', hr, .failed (by decide) ho .keep⟩
        · obtain ⟨u, a, b, rfl, rfl, hl, hd⟩ := commonPrefix_split c q r
          cases a with
          | cons x a => exact insert_split o v hch hl hd
          | nil =>
            rw [List.append_nil] at hch hl
            cases b with
            | nil =>
              rw [List.append_nil] at hl ⊢
              exact insert_fill o v hch hl
            | cons y b =>
              -- the key goes on below the child
              have hg' := (hg c.val).2
              rw [hch] at hg'
              have hdrop : (c :: (u ++ y :: b)).drop (u.length + 1) = y :: b := by
                rw [List.drop_succ_cons, List.drop_left]
              have hlen : (y :: b).length ≤ n := by
                simp only [List.length_cons, List.length_append] at hn ⊢
                omega
              have hfind := find_append (p := p) (d := d) hch (y :: b)
              rw [hch] at hfind
              rw [radixTreeInsertHelper, hch]
              simp only [hl, List.length_cons, List.length_append]
              rw [dif_neg (Nat.succ_ne_zero _), if_neg (Nat.lt_irrefl _)]
              simp only [ne_eq, not_true_eq_false, if_false, hdrop]
              rw [if_neg (by simp)]
              obtain ⟨ret, it', o', hr, hres⟩ :=
                ih (y :: b) _ o hlen (List.cons_ne_nil _ _) hg' (by simp)
              rw [hr]
              refine ⟨ret, _, o', rfl, ?_⟩
              cases hres with
              | done hgr ho => exact .done (.descend hch hgr) ho
              | refused hneg hsome =>
                rw [← hch, Function.update_eq_self]
                exact .refused hneg (hfind ▸ hsome)
              | failed hneg ho hsp => exact .failed hneg ho (.descend hch hsp)

/-! ### What follows -/

namespace Grows

variable {v : V} {it it' : RadixTreeNode V} {key : List Byte}

theorem pfx_eq (h : Grows v it key it') : it'.pfx = it.pfx := by cases h <;> rfl

theorem data_eq (h : Grows v it key it') : it'.data = it.data := by cases h <;> rfl

theorem ne_null (h : Grows v it key it') : it' ≠ null := by cases h <;> simp

theorem good_only {p : Option (List Byte)} {d d' : Option V} {x : Byte} {a : List Byte}
    {ch' : UInt8 → RadixTreeNode V} (h : Good (node (some (x :: a)) d' ch')) :
    Good (node p d (only x (node (some (x :: a)) d' ch'))) :=
  (good_noChildren p d).update (fits_cons x a d' ch') h

/-- **The tree stays good.** -/
theorem good (h : Grows v it key it') (hg : Good it) : Good it' := by
  induction h with
  | create _ => exact hg.update (fits_cons _ _ _ _) (good_noChildren _ _)
  | @fill p d ch c q ch' hch =>
    have hg' := (hg c.val).2
    rw [hch] at hg'
    exact hg.update (fits_cons _ _ _ _) hg'.relabel
  | @split p d ch c x u a d' ch' hch =>
    have hg' := (hg c.val).2
    rw [hch] at hg'
    exact hg.update (fits_cons _ _ _ _) (good_only hg'.relabel)
  | @fork p d ch c x y u a b d' ch' _ hch =>
    have hg' := (hg c.val).2
    rw [hch] at hg'
    exact hg.update (fits_cons _ _ _ _)
      ((good_only hg'.relabel).update (fits_cons _ _ _ _) (good_noChildren _ _))
  | @descend p d ch c q key d' ch' it' hch hgr ih =>
    have hg' := (hg c.val).2
    rw [hch] at hg'
    exact hg.update (Or.inr ⟨c, q, hgr.pfx_eq, rfl⟩) (ih hg')

/-- Splitting a node leaves what is stored as it was. -/
theorem under_split (c x : Byte) (u a : List Byte) (d : Option V) (ch : UInt8 → RadixTreeNode V) :
    under (node (some (c :: u)) none (only x (node (some (x :: a)) d ch))) =
      under (node (some (c :: (u ++ x :: a))) d ch) := by
  refine under_fold (only_self x _) ?_ (fun j hj => only_ne hj)
  rw [only_self]
  exact fits_cons x a d ch

/-- **Exactly `key` changes.** -/
theorem find (h : Grows v it key it') :
    find it' = Function.update (Radix.find it) key (some v) := by
  induction h with
  | @create p d ch c r hch =>
    apply find_update
    rw [hch, under_noChildren]
    rfl
  | @fill p d ch c q ch' hch =>
    apply find_update
    rw [hch]
    exact under_setData (c :: q) none (some v) ch'
  | @split p d ch c x u a d' ch' hch =>
    apply find_update
    rw [hch, ← under_split]
    exact under_setData (c :: u) none (some v) _
  | @fork p d ch c x y u a b d' ch' hxy hch =>
    apply find_update
    rw [hch, ← under_split]
    refine under_update (p := c :: u) rfl rfl (find_update ?_)
    rw [only_ne (fun h => hxy (Subtype.ext h).symm), under_noChildren]
    rfl
  | @descend p d ch c q key d' ch' it' hch hgr ih =>
    apply find_update
    rw [hch]
    exact under_update (p := c :: q) rfl hgr.pfx_eq ih

/-- **The key was not stored before.** -/
theorem absent (h : Grows v it key it') : Radix.find it key = none := by
  induction h with
  | create hch => rw [find_cons, children_node, hch]; rfl
  | fill hch => exact find_child hch
  | @split p d ch c x u a d' ch' hch =>
    have hnil : under (node (some (c :: (u ++ x :: a))) d' ch') (c :: (u ++ [])) = none :=
      under_fork (by simp)
    rw [List.append_nil] at hnil
    rw [find_cons, children_node, hch, hnil]
  | @fork p d ch c x y u a b d' ch' hxy hch =>
    rw [find_cons, children_node, hch]
    apply under_fork
    intro x' a' y' b' h1 h2
    rw [← (List.cons.inj h1).1, ← (List.cons.inj h2).1]
    exact hxy
  | descend hch _ ih => rw [find_append hch, hch, ih]

end Grows

namespace Splits

variable {it it' : RadixTreeNode V}

theorem pfx_eq (h : Splits it it') : it'.pfx = it.pfx := by cases h <;> rfl

theorem ne_null (h : Splits it it') (hne : it ≠ null) : it' ≠ null := by
  cases h with
  | keep => exact hne
  | split _ => simp
  | descend _ _ => simp

/-- **The tree stays good.** -/
theorem good (h : Splits it it') (hg : Good it) : Good it' := by
  induction h with
  | keep => exact hg
  | @split p d ch c x u a d' ch' hch =>
    have hg' := (hg c.val).2
    rw [hch] at hg'
    exact hg.update (fits_cons _ _ _ _) (Grows.good_only hg'.relabel)
  | @descend p d ch c q d' ch' it' hch hsp ih =>
    have hg' := (hg c.val).2
    rw [hch] at hg'
    exact hg.update (Or.inr ⟨c, q, hsp.pfx_eq, rfl⟩) (ih hg')

/-- A child that stores what the one in its slot does. -/
theorem find_of_under {p : Option (List Byte)} {d : Option V} {ch : UInt8 → RadixTreeNode V} {c : Byte}
    {t : RadixTreeNode V} (hu : under t = under (ch c.val)) :
    Radix.find (node p d (Function.update ch c.val t)) = Radix.find (node p d ch) := by
  have hf := find_update (p := p) (d := d) (r := []) (w := under (ch c.val) [c])
    (hu.trans (Function.update_eq_self _ _).symm)
  rw [hf, Function.update_eq_self_iff, find_cons]
  rfl

/-- **Nothing changes in what is stored.** -/
theorem find (h : Splits it it') : Radix.find it' = Radix.find it := by
  induction h with
  | keep => rfl
  | @split p d ch c x u a d' ch' hch =>
    apply find_of_under
    rw [hch]
    exact Grows.under_split c x u a d' ch'
  | @descend p d ch c q d' ch' it' hch hsp ih =>
    apply find_of_under
    funext key
    rw [hch, under, under, hsp.pfx_eq, ih]

end Splits

end DataStructures.Radix
