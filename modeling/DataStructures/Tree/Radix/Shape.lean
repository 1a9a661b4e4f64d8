import DataStructures.Tree.Radix.Model
import DataStructures.Lib.Count
import Mathlib.Tactic.Common

/-!
# The shape of a radix tree, and what it stores

`Good`: each child stands in the slot of the first byte of its prefix.  On such a
tree `find` says what is stored, and it is what `__radix_tree_lookup` returns
(`lookup_eq`).  `under` is `find` with the prefix of the node itself in front.

`under_fold` is the one fact behind both `__node_split` and `__node_merge`: a
node without data above its only child stores what the child stores under the
joint prefix.
-/

namespace DataStructures.Radix

open Lib Outcomes

variable {V : Type}

namespace RadixTreeNode

@[simp] theorem pfx_null : (null : RadixTreeNode V).pfx = none := rfl
@[simp] theorem data_null : (null : RadixTreeNode V).data = none := rfl
@[simp] theorem children_null (i : UInt8) : (null : RadixTreeNode V).children i = null := rfl
@[simp] theorem pfx_node (p : Option (List Byte)) (d : Option V) (ch : UInt8 → RadixTreeNode V) :
    (node p d ch).pfx = p := rfl
@[simp] theorem data_node (p : Option (List Byte)) (d : Option V) (ch : UInt8 → RadixTreeNode V) :
    (node p d ch).data = d := rfl
@[simp] theorem children_node (p : Option (List Byte)) (d : Option V)
    (ch : UInt8 → RadixTreeNode V) : (node p d ch).children = ch := rfl

theorem isNull_iff {t : RadixTreeNode V} : t.isNull = true ↔ t = null := by
  cases t <;> simp [isNull]

end RadixTreeNode

open RadixTreeNode

/-! ### Counting children -/

theorem mem_indices (i : UInt8) : i ∈ indices :=
  List.mem_map.mpr ⟨i.toNat, List.mem_range.mpr i.toNat_lt, UInt8.ofNat_toNat⟩

theorem nodup_indices : indices.Nodup := by
  refine List.Nodup.map_on (fun x hx y hy he => ?_) List.nodup_range
  have h := congrArg UInt8.toNat he
  rwa [UInt8.toNat_ofNat_of_lt' (List.mem_range.mp hx),
    UInt8.toNat_ofNat_of_lt' (List.mem_range.mp hy)] at h

theorem not_isNull_iff {t : RadixTreeNode V} : (!t.isNull) = true ↔ t ≠ null := by
  rw [Bool.not_eq_true', ← Bool.not_eq_true, isNull_iff]

theorem nodeChildren_eq_zero {t : RadixTreeNode V} :
    nodeChildren t = 0 ↔ ∀ i, t.children i = null := by
  rw [nodeChildren, List.countP_eq_zero]
  refine ⟨?_, ?_⟩
  · intro h i
    have := h i (mem_indices i)
    rwa [not_isNull_iff, not_not] at this
  · intro h i _
    rw [not_isNull_iff, not_not]
    exact h i

theorem nodeChildren_eq_one {t : RadixTreeNode V} :
    nodeChildren t = 1 ↔ ∃ i, t.children i ≠ null ∧ ∀ j, j ≠ i → t.children j = null := by
  rw [nodeChildren, countP_eq_one_iff nodup_indices]
  simp only [mem_indices, true_and, not_isNull_iff, forall_const]
  refine exists_congr (fun i => and_congr_right (fun _ => forall_congr' (fun j => ?_)))
  exact not_imp_comm

theorem two_le_nodeChildren {t : RadixTreeNode V} :
    2 ≤ nodeChildren t ↔ ∃ i j, i ≠ j ∧ t.children i ≠ null ∧ t.children j ≠ null := by
  rw [nodeChildren, two_le_countP_iff nodup_indices]
  simp only [mem_indices, true_and, not_isNull_iff]

theorem firstChild_of_single {ch : UInt8 → RadixTreeNode V} {i : UInt8} (hi : ch i ≠ null)
    (hj : ∀ j, j ≠ i → ch j = null) : firstChild ch = ch i := by
  have hex : ((indices.map ch).find? (fun it => !it.isNull)).isSome := by
    rw [List.find?_isSome]
    exact ⟨ch i, List.mem_map_of_mem (mem_indices i), not_isNull_iff.mpr hi⟩
  obtain ⟨t, ht⟩ := Option.isSome_iff_exists.mp hex
  rw [firstChild, ht, Option.getD_some]
  have hp := List.find?_some ht
  obtain ⟨j, _, rfl⟩ := List.mem_map.mp (List.mem_of_find?_eq_some ht)
  by_cases h : j = i
  · rw [h]
  · rw [not_isNull_iff] at hp
    exact absurd (hj j h) hp

/-! ### Good trees -/

/-- `t` may stand in the slot of the byte `b`. -/
def Fits (b : UInt8) (t : RadixTreeNode V) : Prop := t = null ∨ ∃ c q, t.pfx = some (c :: q) ∧ c.val = b

/-- **Every child stands in the slot of the first byte of its prefix.** -/
def Good : RadixTreeNode V → Prop
  | .null => True
  | .node _ _ ch => ∀ b, Fits b (ch b) ∧ Good (ch b)

theorem good_null : Good (null : RadixTreeNode V) := trivial

theorem good_noChildren (p : Option (List Byte)) (d : Option V) : Good (node p d noChildren) :=
  fun _ => ⟨Or.inl rfl, trivial⟩

theorem Good.update {p : Option (List Byte)} {d : Option V} {ch : UInt8 → RadixTreeNode V}
    (h : Good (node p d ch)) {b : UInt8} {t : RadixTreeNode V} (hf : Fits b t) (ht : Good t) :
    Good (node p d (Function.update ch b t)) := by
  intro j
  by_cases hj : j = b
  · subst hj
    rw [Function.update_self]
    exact ⟨hf, ht⟩
  · rw [Function.update_of_ne hj]
    exact h j

theorem Good.relabel {p p' : Option (List Byte)} {d d' : Option V} {ch : UInt8 → RadixTreeNode V}
    (h : Good (node p d ch)) : Good (node p' d' ch) := h

theorem fits_cons (c : Byte) (q : List Byte) (d : Option V) (ch : UInt8 → RadixTreeNode V) :
    Fits c.val (node (some (c :: q)) d ch) := Or.inr ⟨c, q, rfl, rfl⟩

/-- The child in the slot of a character is null, or its prefix starts with it. -/
theorem Good.child {p : Option (List Byte)} {d : Option V} {ch : UInt8 → RadixTreeNode V}
    (h : Good (node p d ch)) (c : Byte) :
    ch c.val = null ∨ ∃ q d' ch', ch c.val = node (some (c :: q)) d' ch' := by
  rcases (h c.val).1 with hn | ⟨c', q, hp, hc⟩
  · exact Or.inl hn
  · right
    obtain rfl := Subtype.ext hc
    cases hch : ch c'.val with
    | null => rw [hch] at hp; exact absurd hp (by simp)
    | node p' d' ch' =>
      rw [hch] at hp
      exact ⟨q, d', ch', by rw [← hp, pfx_node]⟩

/-- A child that is not null stands in the slot of a character. -/
theorem Good.child_of_ne {p : Option (List Byte)} {d : Option V} {ch : UInt8 → RadixTreeNode V}
    (h : Good (node p d ch)) {b : UInt8} (hb : ch b ≠ null) :
    ∃ (c : Byte) (q : List Byte) (d' : Option V) (ch' : UInt8 → RadixTreeNode V),
      c.val = b ∧ ch b = node (some (c :: q)) d' ch' := by
  rcases (h b).1 with hn | ⟨c, q, _, rfl⟩
  · exact absurd hn hb
  · rcases h.child c with hn | ⟨q, d', ch', he⟩
    · exact absurd hn hb
    · exact ⟨c, q, d', ch', rfl, he⟩

/-! ### What a tree stores -/

/-- The data stored for `key`, counted from below the prefix of the node. -/
def find : RadixTreeNode V → List Byte → Option V
  | .null, _ => none
  | .node _ d _, [] => d
  | .node _ _ ch, c :: r =>
      match (ch c.val).pfx.bind (c :: r).dropPrefix? with
      | none => none
      | some s => find (ch c.val) s

/-- The data stored for `key`, the prefix of the node included. -/
def under (t : RadixTreeNode V) (key : List Byte) : Option V :=
  (t.pfx.bind key.dropPrefix?).bind (find t)

@[simp] theorem find_nil (t : RadixTreeNode V) : find t [] = t.data := by cases t <;> rfl

theorem find_cons (t : RadixTreeNode V) (c : Byte) (r : List Byte) :
    find t (c :: r) = under (t.children c.val) (c :: r) := by
  cases t with
  | null => rfl
  | node p d ch =>
    rw [find, under, children_node]
    cases (ch c.val).pfx.bind (c :: r).dropPrefix? <;> rfl

@[simp] theorem under_null (key : List Byte) : under (null : RadixTreeNode V) key = none := rfl

theorem under_node (p : List Byte) (d : Option V) (ch : UInt8 → RadixTreeNode V) (key : List Byte) :
    under (node (some p) d ch) key = (key.dropPrefix? p).bind (find (node (some p) d ch)) := rfl

@[simp] theorem under_append (p : List Byte) (d : Option V) (ch : UInt8 → RadixTreeNode V)
    (s : List Byte) : under (node (some p) d ch) (p ++ s) = find (node (some p) d ch) s := by
  rw [under_node, dropPrefix?_append_self]
  rfl

/-- **Below a child** a key goes on after the prefix of the child. -/
theorem find_append {p : Option (List Byte)} {d d' : Option V} {ch ch' : UInt8 → RadixTreeNode V}
    {c : Byte} {q : List Byte} (hch : ch c.val = node (some (c :: q)) d' ch') (s : List Byte) :
    find (node p d ch) (c :: (q ++ s)) = find (ch c.val) s := by
  rw [find_cons, children_node, hch]
  exact under_append (c :: q) d' ch' s

/-- At the end of the prefix the key has the datum of the child. -/
theorem find_child {p : Option (List Byte)} {d d' : Option V} {ch ch' : UInt8 → RadixTreeNode V}
    {c : Byte} {q : List Byte} (hch : ch c.val = node (some (c :: q)) d' ch') :
    find (node p d ch) (c :: q) = d' := by
  have h := find_append (p := p) (d := d) hch []
  rwa [List.append_nil, hch, find_nil, data_node] at h

/-- The prefix of a node does not matter below it. -/
theorem find_relabel (p p' : Option (List Byte)) (d : Option V) (ch : UInt8 → RadixTreeNode V)
    (key : List Byte) : find (node p d ch) key = find (node p' d ch) key := by
  cases key with
  | nil => rfl
  | cons c r => rw [find_cons, find_cons]; rfl

theorem under_noChildren (p : List Byte) (w : Option V) :
    under (node (some p) w noChildren) = Function.update (fun _ => none) p w := by
  funext key
  rw [under_node]
  by_cases hk : key = p
  · subst hk
    have := dropPrefix?_append_self key []
    rw [List.append_nil] at this
    rw [this, Function.update_self]
    rfl
  · rw [Function.update_of_ne hk]
    cases hd : key.dropPrefix? p with
    | none => rfl
    | some s =>
      cases s with
      | nil => rw [dropPrefix?_eq_some, List.append_nil] at hd; exact absurd hd hk
      | cons c r => rw [Option.bind_some, find_cons]; rfl

/-- `under` of a fitting node is about keys that start with its slot only. -/
theorem under_of_ne {b : UInt8} {t : RadixTreeNode V} (hf : Fits b t) {c : Byte} {r : List Byte}
    (hc : c.val ≠ b) : under t (c :: r) = none := by
  rcases hf with rfl | ⟨c', q, hp, rfl⟩
  · rfl
  · rw [under, hp]
    have hd : (c :: r).dropPrefix? (c' :: q) = none := by
      rw [dropPrefix?_eq_none]
      intro s hs
      rw [List.cons_append, List.cons.injEq] at hs
      exact hc (congrArg Subtype.val hs.1)
    rw [Option.bind_some, hd]
    rfl

theorem under_nil {b : UInt8} {t : RadixTreeNode V} (hf : Fits b t) : under t [] = none := by
  rcases hf with rfl | ⟨c, q, hp, _⟩
  · rfl
  · have hd : ([] : List Byte).dropPrefix? (c :: q) = none :=
      dropPrefix?_eq_none.mpr (fun s => by simp)
    rw [under, hp, Option.bind_some, hd]
    rfl

/-- A node without data, all children null but one, stores what that one does. -/
theorem find_single {p : Option (List Byte)} {ch : UInt8 → RadixTreeNode V} {b : UInt8}
    (hf : Fits b (ch b)) (hj : ∀ j, j ≠ b → ch j = null) (key : List Byte) :
    find (node p none ch) key = under (ch b) key := by
  cases key with
  | nil => rw [find_nil, under_nil hf]; rfl
  | cons c r =>
    rw [find_cons, children_node]
    by_cases hc : c.val = b
    · rw [hc]
    · rw [hj _ hc, under_null, under_of_ne hf hc]

/-- **Two nodes in a row fold into one.** -/
theorem under_fold {p q : List Byte} {d : Option V} {ch cch : UInt8 → RadixTreeNode V} {b : UInt8}
    (hb : ch b = node (some q) d cch) (hf : Fits b (ch b)) (hj : ∀ j, j ≠ b → ch j = null) :
    under (node (some p) none ch) = under (node (some (p ++ q)) d cch) := by
  funext key
  rw [under_node, under_node, dropPrefix?_append, Option.bind_assoc]
  refine congrArg _ (funext (fun s => ?_))
  rw [find_single hf hj, hb, under_node]
  exact congrArg _ (funext (fun r => find_relabel _ _ d cch r))

/-! ### Changing what is stored -/

theorem find_setData (p p' : Option (List Byte)) (d w : Option V) (ch : UInt8 → RadixTreeNode V) :
    find (node p' w ch) = Function.update (find (node p d ch)) [] w := by
  funext key
  cases key with
  | nil => rw [Function.update_self]; rfl
  | cons c r =>
    rw [Function.update_of_ne (List.cons_ne_nil c r), find_cons, find_cons]
    rfl

/-- A change below a node, seen from above it. -/
theorem under_update {p s : List Byte} {w : Option V} {t t' : RadixTreeNode V}
    (hp : t.pfx = some p) (hp' : t'.pfx = some p)
    (hf : find t' = Function.update (find t) s w) :
    under t' = Function.update (under t) (p ++ s) w := by
  funext key
  rw [under, hp', Option.bind_some, hf]
  by_cases hk : key = p ++ s
  · subst hk
    rw [Function.update_self, dropPrefix?_append_self, Option.bind_some, Function.update_self]
  · rw [Function.update_of_ne hk, under, hp, Option.bind_some]
    cases hd : key.dropPrefix? p with
    | none => rfl
    | some r =>
      rw [Option.bind_some, Option.bind_some, Function.update_of_ne]
      rintro rfl
      exact hk (dropPrefix?_eq_some.mp hd)

/-- Another datum at a node, seen from above it. -/
theorem under_setData (p : List Byte) (d w : Option V) (ch : UInt8 → RadixTreeNode V) :
    under (node (some p) w ch) = Function.update (under (node (some p) d ch)) p w := by
  have := under_update (p := p) (s := []) rfl rfl (find_setData (some p) (some p) d w ch)
  rwa [List.append_nil] at this

/-- A change in one child, seen from the node. -/
theorem find_update {p : Option (List Byte)} {d : Option V} {ch : UInt8 → RadixTreeNode V} {c : Byte}
    {r : List Byte} {w : Option V} {t : RadixTreeNode V}
    (hu : under t = Function.update (under (ch c.val)) (c :: r) w) :
    find (node p d (Function.update ch c.val t)) =
      Function.update (find (node p d ch)) (c :: r) w := by
  funext key
  cases key with
  | nil =>
    rw [Function.update_of_ne (List.cons_ne_nil _ _).symm]
    rfl
  | cons e s =>
    rw [find_cons, children_node]
    by_cases he : e = c
    · subst he
      rw [Function.update_self, hu]
      by_cases hs : e :: s = e :: r
      · rw [hs, Function.update_self, Function.update_self]
      · rw [Function.update_of_ne hs, Function.update_of_ne hs, find_cons]
        rfl
    · rw [Function.update_of_ne (fun h => he (Subtype.ext h)),
        Function.update_of_ne (fun h => he (List.cons.inj h).1), find_cons]
      rfl

/-! ### Prefixes and keys -/

/-- **A prefix and a key in one slot split at their common prefix**, which is not
empty. -/
theorem commonPrefix_split (c : Byte) (q r : List Byte) : ∃ u a b, q = u ++ a ∧ r = u ++ b ∧
    commonPrefix (c :: q) (c :: r) = u.length + 1 ∧
    ∀ x a' y b', a = x :: a' → b = y :: b' → x ≠ y := by
  obtain ⟨u, a, b, hq, hr, hl, hd⟩ := lcp_spec q r
  exact ⟨u, a, b, hq, hr, by rw [commonPrefix, lcp, if_pos rfl, hl], hd⟩

/-- A key that leaves the prefix of a node before its end is not stored there. -/
theorem under_fork {c x : Byte} {u a b : List Byte} {d : Option V} {ch : UInt8 → RadixTreeNode V}
    (hd : ∀ x' a' y b', x :: a = x' :: a' → b = y :: b' → x' ≠ y) :
    under (node (some (c :: (u ++ x :: a))) d ch) (c :: (u ++ b)) = none := by
  rw [under_node, dropPrefix?_eq_none.mpr]
  · rfl
  · intro s he
    rw [List.cons_append, List.append_assoc, List.cons.injEq, List.append_cancel_left_eq] at he
    exact hd x a x (a ++ s) rfl he.2 rfl

/-- **`__radix_tree_lookup` returns what is stored.** -/
theorem lookup_eq : ∀ (n : Nat) (key : List Byte) (it : RadixTreeNode V), key.length ≤ n → key ≠ [] →
    Good it → it ≠ null → radixTreeLookupHelper it key = some (find it key) := by
  intro n
  induction n with
  | zero =>
    intro key it hn hk
    exact absurd (List.length_eq_zero_iff.mp (Nat.le_zero.mp hn)) hk
  | succ n ih =>
    intro key it hn hk hg hne
    cases key with
    | nil => exact absurd rfl hk
    | cons c r =>
      cases it with
      | null => exact absurd rfl hne
      | node p d ch =>
        rw [radixTreeLookupHelper, find_cons, children_node]
        rcases hg.child c with hch | ⟨q, d', ch', hch⟩
        · rw [hch]; rfl
        · have hg' := (hg c.val).2
          rw [hch] at hg' ⊢
          obtain ⟨u, a, b, rfl, rfl, hl, hd⟩ := commonPrefix_split c q r
          simp only [hl, List.length_cons, List.length_append]
          rw [dif_neg (Nat.succ_ne_zero _)]
          cases a with
          | cons x a =>
            -- the prefix is longer than what it shares with the key
            rw [if_pos (by simp), under_fork hd]
          | nil =>
            rw [if_neg (by simp), List.append_nil]
            have hun := under_append (c :: u) d' ch' b
            rw [List.cons_append] at hun
            rw [hun]
            cases b with
            | nil => rw [if_pos (by simp)]; rfl
            | cons y b =>
              rw [if_neg (by simp), List.drop_succ_cons, List.drop_left]
              refine ih (y :: b) _ ?_ (List.cons_ne_nil _ _) hg' (by simp)
              simp only [List.length_cons, List.length_append] at hn ⊢
              omega

end DataStructures.Radix
