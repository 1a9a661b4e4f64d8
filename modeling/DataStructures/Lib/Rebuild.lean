import DataStructures.Lib.Traversals
import Mathlib.Data.List.Count

/-!
# A tree from its in-order and its level order

The first value in level order is the root.  What stands before its first occurrence in in-order
goes to the left, what stands behind it to the right: `select part lvl` are the values of `lvl`,
each as often as it occurs in `part`.  `Rebuilds ins lvl t`: going on in this way with the lists
that are selected, always from the whole in-order `ins`, ends with the tree `t`, and no list on the
way is longer than `ins`.

* `rebuilds_levelOrder`: a tree whose values occur once is rebuilt from its level order.
* `Rebuilds.regular`: if what is rebuilt has the in-order and the level order it was rebuilt from,
  no value is repeated, except perhaps that of the root (`Regular`).
* `eq_of_orders`: the two orders determine a tree whose values occur once.
-/

namespace DataStructures.Lib.Rebuild

open LevelOrder Traversals

variable {A : Type} [DecidableEq A]

/-- The values of `lvl`, each as often as it occurs in `part`. -/
def select (part lvl : List A) : List A := lvl.flatMap (fun x => List.replicate (part.count x) x)

/-- From this level order the tree is built. -/
inductive Rebuilds (ins : List A) : List A → BinaryTree A → Prop where
  | nil : Rebuilds ins [] .nil
  | node {left right lvl : List A} {x : A} {l r : BinaryTree A} (hins : ins = left ++ x :: right)
      (hx : x ∉ left) (hleft : (select left lvl).length ≤ ins.length)
      (hright : (select right lvl).length ≤ ins.length) (hl : Rebuilds ins (select left lvl) l)
      (hr : Rebuilds ins (select right lvl) r) : Rebuilds ins (x :: lvl) (.node x l r)

/-- No value is repeated; or that of the root is, once, in its right child, which then has no left
child. -/
def Regular (t : BinaryTree A) : Prop :=
  (inOrder t).Nodup ∨ ∃ x l r, t = .node x l (.node x .nil r) ∧ (x :: (inOrder l ++ inOrder r)).Nodup

variable {ins lvl part left right : List A} {t l r : BinaryTree A} {x y : A}

/-! ### What is selected -/

theorem select_append (part lvl lvl' : List A) :
    select part (lvl ++ lvl') = select part lvl ++ select part lvl' := List.flatMap_append

theorem select_eq_self (h : ∀ x ∈ lvl, part.count x = 1) : select part lvl = lvl := by
  induction lvl with
  | nil => rfl
  | cons x lvl ih =>
    obtain ⟨hx, hlvl⟩ := List.forall_mem_cons.mp h
    rw [select, List.flatMap_cons, hx, ← select, ih hlvl]
    rfl

theorem select_eq_nil (h : ∀ x ∈ lvl, x ∉ part) : select part lvl = [] := by
  refine List.flatMap_eq_nil_iff.mpr fun x hx => ?_
  rw [List.count_eq_zero.mpr (h x hx)]
  rfl

theorem mem_select : y ∈ select part lvl ↔ y ∈ lvl ∧ y ∈ part := by
  rw [select, List.mem_flatMap]
  constructor
  · rintro ⟨x, hx, hy⟩
    obtain ⟨hne, rfl⟩ := List.mem_replicate.mp hy
    exact ⟨hx, List.count_pos_iff.mp (Nat.pos_of_ne_zero hne)⟩
  · rintro ⟨hlvl, hpart⟩
    exact ⟨y, hlvl, List.mem_replicate.mpr ⟨Nat.ne_of_gt (List.count_pos_iff.mpr hpart), rfl⟩⟩

theorem count_select (part lvl : List A) (y : A) : (select part lvl).count y = lvl.count y * part.count y := by
  induction lvl with
  | nil => exact (Nat.zero_mul _).symm
  | cons x lvl ih =>
    rw [select, List.flatMap_cons, ← select, List.count_append, ih, List.count_replicate, List.count_cons,
      Nat.add_mul, Nat.add_comm]
    by_cases hxy : x = y
    · subst hxy
      simp
    · simp [hxy]

/-- **The level orders of both sides are told apart** by what occurs on one side only. -/
theorem select_left (hl : ∀ y ∈ levelOrder l, part.count y = 1) (hr : ∀ y ∈ levelOrder r, y ∉ part) :
    select part (levelOrder (.node x l r)).tail = levelOrder l := by
  rw [levelOrder_node, List.tail_cons, levelOrder_eq (Nat.le_max_left l.height r.height), select, List.flatMap_assoc]
  refine List.flatMap_congr fun k _ => ?_
  rw [← select, select_append, select_eq_self (fun y hy => hl y (mem_of_level hy)),
    select_eq_nil (fun y hy => hr y (mem_of_level hy)), List.append_nil]

theorem select_right (hl : ∀ y ∈ levelOrder l, y ∉ part) (hr : ∀ y ∈ levelOrder r, part.count y = 1) :
    select part (levelOrder (.node x l r)).tail = levelOrder r := by
  rw [levelOrder_node, List.tail_cons, levelOrder_eq (Nat.le_max_right l.height r.height), select, List.flatMap_assoc]
  refine List.flatMap_congr fun k _ => ?_
  rw [← select, select_append, select_eq_self (fun y hy => hr y (mem_of_level hy)),
    select_eq_nil (fun y hy => hl y (mem_of_level hy)), List.nil_append]

/-! ### Values that occur once -/

theorem count_split (hins : ins = left ++ x :: right) (y : A) :
    ins.count y = left.count y + right.count y + if x = y then 1 else 0 := by
  rw [hins, List.count_append, List.count_cons, Nat.add_assoc]
  simp

/-- A value that occurs once stands on one side. -/
theorem only_left (hins : ins = left ++ x :: right) (h : ins.count y = 1) (hy : y ∈ left) :
    left.count y = 1 ∧ y ∉ right := by
  have hcount := count_split hins y
  have hpos := List.count_pos_iff.mpr hy
  rw [← List.count_eq_zero]
  omega

theorem only_right (hins : ins = left ++ x :: right) (h : ins.count y = 1) (hy : y ∈ right) :
    right.count y = 1 ∧ y ∉ left := by
  have hcount := count_split hins y
  have hpos := List.count_pos_iff.mpr hy
  rw [← List.count_eq_zero]
  omega

theorem root_not_left (hins : ins = left ++ x :: right) (h : ins.count x = 1) : x ∉ left := by
  have hcount := count_split hins x
  rw [if_pos rfl] at hcount
  rw [← List.count_eq_zero]
  omega

/-- **A root between two subtrees** whose values are told apart. -/
theorem rebuilds_node (hins : ins = left ++ x :: right) (hx : x ∉ left)
    (hl : ∀ y ∈ levelOrder l, left.count y = 1 ∧ y ∉ right)
    (hr : ∀ y ∈ levelOrder r, right.count y = 1 ∧ y ∉ left)
    (hsize : l.numNodes ≤ ins.length ∧ r.numNodes ≤ ins.length) (hlb : Rebuilds ins (levelOrder l) l)
    (hrb : Rebuilds ins (levelOrder r) r) : Rebuilds ins (levelOrder (.node x l r)) (.node x l r) := by
  have hsl := select_left (x := x) (fun y hy => (hl y hy).1) (fun y hy => (hr y hy).2)
  have hsr := select_right (x := x) (fun y hy => (hl y hy).2) (fun y hy => (hr y hy).1)
  rw [levelOrder_node, List.tail_cons] at hsl hsr
  rw [levelOrder_node]
  refine .node hins hx ?_ ?_ ?_ ?_
  · rw [hsl, length_levelOrder]
    exact hsize.1
  · rw [hsr, length_levelOrder]
    exact hsize.2
  · rwa [hsl]
  · rwa [hsr]

/-- **A tree whose values occur once is rebuilt from its level order.** -/
theorem rebuilds_levelOrder (hins : ins = left ++ inOrder t ++ right)
    (hone : ∀ y ∈ inOrder t, ins.count y = 1) : Rebuilds ins (levelOrder t) t := by
  induction t generalizing left right with
  | nil => exact .nil
  | node x l r ihl ihr =>
    have hroot : ins = (left ++ inOrder l) ++ x :: (inOrder r ++ right) := by
      rw [hins, inOrder]
      simp only [List.append_assoc, List.cons_append]
    have hr : ins = (left ++ inOrder l ++ [x]) ++ inOrder r ++ right := by
      rw [hroot]
      simp only [List.append_assoc, List.cons_append, List.nil_append]
    simp only [inOrder, List.mem_append, List.mem_cons] at hone
    have honel : ∀ y ∈ inOrder l, ins.count y = 1 := fun y hy => hone y (Or.inl hy)
    have honer : ∀ y ∈ inOrder r, ins.count y = 1 := fun y hy => hone y (Or.inr (Or.inr hy))
    have hlen := congrArg List.length hins
    simp only [inOrder, List.length_append, List.length_cons, length_inOrder] at hlen
    refine rebuilds_node hroot (root_not_left hroot (hone x (Or.inr (Or.inl rfl)))) ?_ ?_
      ⟨by omega, by omega⟩ (ihl hroot honel) (ihr hr honer)
    · intro y hy
      rw [← (inOrder_perm l).mem_iff] at hy
      exact only_left hroot (honel y hy) (List.mem_append_right _ hy)
    · intro y hy
      rw [← (inOrder_perm r).mem_iff] at hy
      exact only_right hroot (honer y hy) (List.mem_append_left _ hy)

/-! ### Repeated values -/

theorem count_inOrder (x y : A) (l r : BinaryTree A) : (inOrder (.node y l r)).count x =
    (inOrder l).count x + (inOrder r).count x + if y = x then 1 else 0 :=
  count_split rfl x

/-- The values that are selected on both sides, for a value that is not the root's and for the
root's. -/
theorem count_node (hins : ins = left ++ y :: right) (hy : y ∉ left)
    (hl : (select left lvl).count x ≤ (inOrder l).count x)
    (hr : (select right lvl).count x ≤ (inOrder r).count x) :
    (y ≠ x → lvl.count x * ins.count x ≤ (inOrder (.node y l r)).count x) ∧
      (y = x → lvl.count x * (ins.count x - 1) + 1 ≤ (inOrder (.node y l r)).count x) := by
  rw [count_select] at hl hr
  rw [count_inOrder, count_split hins x]
  constructor
  · intro hne
    rw [if_neg hne, Nat.add_zero, Nat.add_zero, Nat.mul_add]
    omega
  · rintro rfl
    rw [List.count_eq_zero.mpr hy, if_pos rfl, Nat.zero_add, Nat.add_sub_cancel]
    omega

/-- **A repeated value is never lost.** -/
theorem Rebuilds.count_le (h : Rebuilds ins lvl t) (hx : 2 ≤ ins.count x) :
    lvl.count x ≤ (inOrder t).count x := by
  induction h with
  | nil => exact Nat.zero_le _
  | @node left right lvl y l r hins hy _ _ _ _ ihl ihr =>
    obtain ⟨hother, hroot⟩ := count_node hins hy ihl ihr
    rw [List.count_cons]
    by_cases hyx : y = x
    · have hmul := Nat.le_mul_of_pos_right (lvl.count x) (show 0 < ins.count x - 1 by omega)
      have hle := hroot hyx
      rw [if_pos (beq_iff_eq.mpr hyx)]
      omega
    · have hmul := Nat.le_mul_of_pos_right (lvl.count x) (show 0 < ins.count x by omega)
      have hle := hother hyx
      rw [if_neg (mt beq_iff_eq.mp hyx)]
      omega

/-- What the repeated value of the root, and that of another node, multiply to. -/
theorem Rebuilds.count_root (h : Rebuilds ins (y :: lvl) t) (hx : 2 ≤ ins.count x) :
    (y ≠ x → lvl.count x * ins.count x ≤ (inOrder t).count x) ∧
      (y = x → lvl.count x * (ins.count x - 1) + 1 ≤ (inOrder t).count x) := by
  cases h with
  | node hins hy _ _ hl hr => exact count_node hins hy (hl.count_le hx) (hr.count_le hx)

/-- **Only the value of the root is repeated**, and it occurs twice. -/
theorem Rebuilds.repeated (h : Rebuilds (inOrder t) (y :: lvl) t) (ht : levelOrder t = y :: lvl)
    (hx : 2 ≤ (inOrder t).count x) : y = x ∧ (inOrder t).count x = 2 := by
  obtain ⟨hother, hroot⟩ := h.count_root hx
  have hcount := (inOrder_perm t).count_eq x
  rw [ht, List.count_cons] at hcount
  by_cases hyx : y = x
  · have hle := hroot hyx
    rw [if_pos (beq_iff_eq.mpr hyx)] at hcount
    refine ⟨hyx, ?_⟩
    by_contra hne
    have hmul := Nat.mul_le_mul_left (lvl.count x) (show 2 ≤ (inOrder t).count x - 1 by omega)
    omega
  · have hle := hother hyx
    rw [if_neg (mt beq_iff_eq.mp hyx)] at hcount
    have hmul := Nat.mul_le_mul_left (lvl.count x) hx
    omega

omit [DecidableEq A] in
/-- A list is split in one way at the first occurrence of a value. -/
theorem split_unique {left' right' : List A} (hx : x ∉ left) (hx' : x ∉ left')
    (h : left ++ x :: right = left' ++ x :: right') : left = left' := by
  induction left generalizing left' with
  | nil =>
    cases left' with
    | nil => rfl
    | cons y left' =>
      obtain rfl := (List.cons.inj h).1
      exact absurd List.mem_cons_self hx'
  | cons y left ih =>
    cases left' with
    | nil =>
      obtain rfl := (List.cons.inj h).1
      exact absurd List.mem_cons_self hx
    | cons z left' =>
      rw [List.cons_append, List.cons_append] at h
      obtain ⟨rfl, hrest⟩ := List.cons.inj h
      rw [List.mem_cons, not_or] at hx hx'
      rw [ih hx.2 hx'.2 hrest]

/-- What is selected once, and not put on both sides, comes first. -/
theorem Rebuilds.head_eq (h : Rebuilds ins lvl t) (hx : 2 ≤ ins.count x) (hone : lvl.count x = 1)
    (ht : (inOrder t).count x < 2) : ∃ rest, lvl = x :: rest := by
  cases lvl with
  | nil => cases hone
  | cons y rest =>
    refine ⟨rest, ?_⟩
    by_contra hne
    have hyx : y ≠ x := fun hyx => hne (by rw [hyx])
    rw [List.count_cons, if_neg (mt beq_iff_eq.mp hyx)] at hone
    have hle := (h.count_root hx).1 hyx
    have hmul := Nat.mul_le_mul_left (rest.count x) hx
    omega

/-- The second of two equal values is the right child, and has no left one. -/
theorem Rebuilds.right_child (h : Rebuilds (inOrder (.node x l r)) (x :: lvl) (.node x l r))
    (honly : ∀ y, 2 ≤ (inOrder (.node x l r)).count y → x = y)
    (htwo : (inOrder (.node x l r)).count x = 2) (hlvl : lvl.count x = 1) :
    ∃ r', r = .node x .nil r' := by
  have hsum := count_inOrder x x l r
  rw [if_pos rfl] at hsum
  cases h with
  | @node left right _ _ _ _ hins hx _ _ hl hr =>
    have hcount := count_split hins x
    rw [List.count_eq_zero.mpr hx, if_pos rfl] at hcount
    have hone : (select right lvl).count x = 1 := by
      rw [count_select, hlvl, show right.count x = 1 by omega]
    have hle := hr.count_le (Nat.le_of_eq htwo.symm)
    obtain ⟨rest, hsel⟩ := hr.head_eq (Nat.le_of_eq htwo.symm) hone (by omega)
    rw [hsel] at hr
    cases hr with
    | @node left' right' _ _ l' r' hins' hx' _ _ hl' _ =>
      obtain rfl : left = left' := split_unique hx hx' (hins.symm.trans hins')
      -- what is on the right of the root is not on its left
      have hnone : select left rest = [] := by
        refine select_eq_nil fun y hy hleft => ?_
        have hright : y ∈ right := (mem_select.mp (hsel ▸ List.mem_cons_of_mem x hy)).2
        have hpos := List.count_pos_iff.mpr hright
        have hpos' := List.count_pos_iff.mpr hleft
        have hcount' := count_split hins y
        obtain rfl := honly y (by omega)
        exact hx hleft
      rw [hnone] at hl'
      cases hl' with
      | nil => exact ⟨r', rfl⟩

/-- **A tree that is rebuilt from its own orders is regular.** -/
theorem Rebuilds.regular (h : Rebuilds (inOrder t) (levelOrder t) t) : Regular t := by
  by_cases hnd : ∀ x, (inOrder t).count x ≤ 1
  · exact Or.inl (List.nodup_iff_count_le_one.mpr hnd)
  right
  obtain ⟨x, hx⟩ := not_forall.mp hnd
  have hx := Nat.lt_of_not_le hx
  cases t with
  | nil => exact absurd hx (Nat.not_lt_zero 1)
  | node y l r =>
    have hlevel := levelOrder_node y l r
    rw [hlevel] at h
    have honly : ∀ z, 2 ≤ (inOrder (.node y l r)).count z → y = z := fun z hz => (h.repeated hlevel hz).1
    obtain ⟨rfl, htwo⟩ := h.repeated hlevel hx
    have hperm := (inOrder_perm (.node y l r)).count_eq y
    rw [hlevel, List.count_cons_self, htwo] at hperm
    obtain ⟨r, rfl⟩ := h.right_child honly htwo (Nat.succ.inj hperm).symm
    refine ⟨y, l, r, rfl, List.nodup_iff_count_le_one.mpr fun z => ?_⟩
    have hcount := count_inOrder z y l (.node y .nil r)
    rw [count_inOrder z y .nil r, inOrder, List.count_nil] at hcount
    rw [List.count_cons, List.count_append]
    by_cases hyz : y = z
    · subst hyz
      simp only [if_true, htwo] at hcount
      simp only [beq_self_eq_true, if_true]
      omega
    · have hle := mt (honly z) hyz
      rw [if_neg (mt beq_iff_eq.mp hyz)]
      rw [if_neg hyz] at hcount
      omega

/-- **A regular tree is rebuilt from its orders.** -/
theorem Regular.rebuilds (h : Regular t) : Rebuilds (inOrder t) (levelOrder t) t := by
  rcases h with hnd | ⟨x, l, r, rfl, hnd⟩
  · have hone : ∀ y ∈ inOrder t, (inOrder t).count y = 1 := fun y hy => List.count_eq_one_of_mem hnd hy
    exact rebuilds_levelOrder (show inOrder t = [] ++ inOrder t ++ [] by simp) hone
  · rw [List.nodup_cons, List.mem_append, not_or, List.nodup_append] at hnd
    obtain ⟨⟨hxl, hxr⟩, hl, hr, hlr⟩ := hnd
    have hright : (x :: inOrder r).Nodup := List.nodup_cons.mpr ⟨hxr, hr⟩
    have hleft : ∀ y ∈ levelOrder l, (inOrder l).count y = 1 ∧ y ∉ x :: inOrder r := by
      intro y hy
      rw [← (inOrder_perm l).mem_iff] at hy
      refine ⟨List.count_eq_one_of_mem hl hy, fun hmem => ?_⟩
      rcases List.mem_cons.mp hmem with rfl | hmem
      · exact hxl hy
      · exact hlr y hy y hmem rfl
    have hrest : ∀ y ∈ x :: inOrder r, (x :: inOrder r).count y = 1 ∧ y ∉ inOrder l := by
      intro y hy
      refine ⟨List.count_eq_one_of_mem hright hy, fun hmem => ?_⟩
      exact (hleft y ((inOrder_perm l).mem_iff.mp hmem)).2 hy
    have hone : ∀ y, y ∈ inOrder l ∨ y ∈ inOrder r → (inOrder l ++ x :: x :: inOrder r).count y = 1 := by
      intro y hy
      have hyx : x ≠ y := by
        rintro rfl
        exact hy.elim hxl hxr
      rw [List.count_append, List.count_cons_of_ne hyx, List.count_cons_of_ne hyx, ← List.count_append]
      exact List.count_eq_one_of_mem (List.nodup_append.mpr ⟨hl, hr, hlr⟩) (List.mem_append.mpr hy)
    have hsize : l.numNodes + r.numNodes + 2 = (inOrder l ++ x :: x :: inOrder r).length := by
      simp only [List.length_append, List.length_cons, length_inOrder]
      omega
    have hlb : Rebuilds (inOrder l ++ x :: x :: inOrder r) (levelOrder l) l :=
      rebuilds_levelOrder (show _ = [] ++ inOrder l ++ x :: x :: inOrder r from rfl)
        (fun y hy => hone y (Or.inl hy))
    have hrb : Rebuilds (inOrder l ++ x :: x :: inOrder r) (levelOrder r) r :=
      rebuilds_levelOrder (show _ = (inOrder l ++ [x, x]) ++ inOrder r ++ [] by simp)
        (fun y hy => hone y (Or.inr hy))
    -- both roots are found at the first of the two
    have hchild : Rebuilds (inOrder l ++ x :: x :: inOrder r) (levelOrder (.node x .nil r)) (.node x .nil r) := by
      refine rebuilds_node rfl hxl (fun y hy => absurd hy List.not_mem_nil) (fun y hy => ?_)
        ⟨Nat.zero_le _, by omega⟩ .nil hrb
      exact hrest y (List.mem_cons_of_mem x ((inOrder_perm r).mem_iff.mpr hy))
    show Rebuilds (inOrder l ++ x :: x :: inOrder r) _ _
    refine rebuilds_node rfl hxl hleft (fun y hy => hrest y ?_) ⟨by omega, ?_⟩ hlb hchild
    · exact (inOrder_perm (.node x .nil r)).mem_iff.mpr hy
    · rw [BinaryTree.numNodes, BinaryTree.numNodes]
      omega

/-- **The two orders determine a tree** whose values occur once. -/
theorem eq_of_orders {s : BinaryTree A} (hnd : (inOrder t).Nodup) (hin : inOrder t = inOrder s)
    (hlvl : levelOrder t = levelOrder s) : t = s := by
  induction t generalizing s with
  | nil =>
    cases s with
    | nil => rfl
    | node y l' r' =>
      rw [levelOrder_node] at hlvl
      exact absurd hlvl (List.cons_ne_nil _ _).symm
  | node x l r ihl ihr =>
    cases s with
    | nil =>
      rw [levelOrder_node] at hlvl
      exact absurd hlvl (List.cons_ne_nil _ _)
    | node y l' r' =>
      have htail := congrArg List.tail hlvl
      rw [levelOrder_node, levelOrder_node] at hlvl
      obtain rfl := (List.cons.inj hlvl).1
      have hnd' := hnd
      rw [hin] at hnd'
      obtain ⟨hl, hr, hxl, hxr, hne⟩ := nodup_inOrder_node.mp hnd
      obtain ⟨hl', hr', hxl', hxr', hne'⟩ := nodup_inOrder_node.mp hnd'
      rw [inOrder, inOrder] at hin
      have hleft := split_unique hxl hxl' hin
      have hright : inOrder r = inOrder r' := by
        rw [hleft] at hin
        exact (List.cons.inj (List.append_cancel_left hin)).2
      have honce : ∀ {u : BinaryTree A}, (inOrder u).Nodup → ∀ z ∈ levelOrder u, (inOrder u).count z = 1 :=
        fun hu z hz => List.count_eq_one_of_mem hu ((inOrder_perm _).mem_iff.mpr hz)
      have hapart : ∀ {u v : BinaryTree A}, (∀ b ∈ inOrder u, ∀ c ∈ inOrder v, b ≠ c) →
          (∀ z ∈ levelOrder v, z ∉ inOrder u) ∧ ∀ z ∈ levelOrder u, z ∉ inOrder v := by
        intro u v huv
        refine ⟨fun z hz hu => ?_, fun z hz hv => ?_⟩
        · exact huv z hu z ((inOrder_perm v).mem_iff.mpr hz) rfl
        · exact huv z ((inOrder_perm u).mem_iff.mpr hz) z hv rfl
      have hll : levelOrder l = levelOrder l' := by
        rw [← select_left (x := x) (honce hl) (hapart hne).1, htail, hleft,
          select_left (honce hl') (hapart hne').1]
      have hrr : levelOrder r = levelOrder r' := by
        rw [← select_right (x := x) (hapart hne).2 (honce hr), htail, hright,
          select_right (hapart hne').2 (honce hr')]
      rw [ihl hl hleft hll, ihr hr hright hrr]

end DataStructures.Lib.Rebuild
