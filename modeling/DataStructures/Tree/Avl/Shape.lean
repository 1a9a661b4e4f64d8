import DataStructures.Tree.Avl.Model
import Mathlib.Data.List.Nodup

/-!
# Trees in memory

`Tree K` is what a pointer to an AVL node stands for: each node with its address,
its datum and its stored height.  `Holds m t`: the memory holds the nodes of `t`.

`Tree.rotL`, `Tree.rotR` and `Tree.balance` are what the rotations and
`__avl_tree_balance` compute, and the theorems `avlTreeLeftRotate_spec`,
`avlTreeRightRotate_spec` and `avlTreeBalance_spec` say that they do, changing only
the nodes of the tree.  The nodes stay the same (`balance_addrs`), and so does their
order (`balance_toList`).
-/

namespace DataStructures.Avl

open Lib Memory

variable {K : Type}

/-- An AVL tree, with the addresses of its nodes. -/
inductive Tree (K : Type)
  | nil
  | node (addr : Nat) (data : K) (left right : Tree K) (height : Int)

namespace Tree

/-- The pointer to the root. -/
def ptr : Tree K → Ptr
  | nil => none
  | node a _ _ _ _ => some a

/-- The stored height. -/
def ht : Tree K → Int
  | nil => 0
  | node _ _ _ _ h => h

def addrs : Tree K → List Nat
  | nil => []
  | node a _ l r _ => a :: (l.addrs ++ r.addrs)

/-- The data in order. -/
def toList : Tree K → List K
  | nil => []
  | node _ d l r _ => l.toList ++ d :: r.toList

/-- The balance factor. -/
def bal : Tree K → Int
  | nil => 0
  | node _ _ l r _ => l.ht - r.ht

/-- A node with its height brought up to date. -/
def mk (a : Nat) (d : K) (l r : Tree K) : Tree K := node a d l r (1 + max l.ht r.ht)

/-- The left rotation. -/
def rotL : Tree K → Tree K
  | node x d xl (node y e yl yr _) _ => mk y e (mk x d xl yl) yr
  | t => t

/-- The right rotation. -/
def rotR : Tree K → Tree K
  | node x d (node y e yl yr _) xr _ => mk y e yl (mk x d yr xr)
  | t => t

/-- Balancing, after the height has been brought up to date. -/
def balance : Tree K → Tree K
  | nil => nil
  | node a d l r _ =>
      if l.ht - r.ht < -1 then (mk a d l (if 0 < r.bal then r.rotR else r)).rotL
      else if 1 < l.ht - r.ht then (mk a d (if l.bal < 0 then l.rotL else l) r).rotR
      else mk a d l r

/-- All stored heights are positive. -/
def Pos : Tree K → Prop
  | nil => True
  | node _ _ l r h => 1 ≤ h ∧ l.Pos ∧ r.Pos

@[simp] theorem ptr_nil : (nil : Tree K).ptr = none := rfl
@[simp] theorem ptr_node (a : Nat) (d : K) (l r : Tree K) (h : Int) :
    (node a d l r h).ptr = some a := rfl
@[simp] theorem ptr_mk (a : Nat) (d : K) (l r : Tree K) : (mk a d l r).ptr = some a := rfl
@[simp] theorem ht_nil : (nil : Tree K).ht = 0 := rfl
@[simp] theorem ht_node (a : Nat) (d : K) (l r : Tree K) (h : Int) : (node a d l r h).ht = h := rfl
@[simp] theorem ht_mk (a : Nat) (d : K) (l r : Tree K) :
    (mk a d l r).ht = 1 + max l.ht r.ht := rfl
@[simp] theorem addrs_mk (a : Nat) (d : K) (l r : Tree K) :
    (mk a d l r).addrs = a :: (l.addrs ++ r.addrs) := rfl
@[simp] theorem toList_mk (a : Nat) (d : K) (l r : Tree K) :
    (mk a d l r).toList = l.toList ++ d :: r.toList := rfl

theorem ptr_eq_none {t : Tree K} : t.ptr = none ↔ t = nil := by
  cases t <;> simp

theorem nodup_node {a : Nat} {d : K} {l r : Tree K} {h : Int} :
    (node a d l r h).addrs.Nodup ↔
      a ∉ l.addrs ∧ a ∉ r.addrs ∧ l.addrs.Nodup ∧ r.addrs.Nodup ∧ l.addrs.Disjoint r.addrs := by
  rw [addrs, List.nodup_cons, List.mem_append, not_or, List.nodup_append']
  tauto

theorem Pos.ht_nonneg {t : Tree K} (h : t.Pos) : 0 ≤ t.ht := by
  cases t with
  | nil => exact Int.le_refl 0
  | node a d l r hh => exact Int.le_trans (by decide) h.1

theorem Pos.mk {a : Nat} {d : K} {l r : Tree K} (hl : l.Pos) (hr : r.Pos) : (mk a d l r).Pos := by
  have := hl.ht_nonneg
  exact ⟨by omega, hl, hr⟩

/-! ### Rotations keep nodes and order -/

theorem rotL_addrs (t : Tree K) : t.rotL.addrs.Perm t.addrs := by
  cases t with
  | nil => exact List.Perm.refl _
  | node x d xl r h =>
    cases r with
    | nil => exact List.Perm.refl _
    | node y e yl yr hy =>
      simp only [rotL, addrs_mk, addrs]
      rw [List.perm_iff_count]
      intro b
      simp only [List.count_cons, List.count_append]
      omega

theorem rotR_addrs (t : Tree K) : t.rotR.addrs.Perm t.addrs := by
  cases t with
  | nil => exact List.Perm.refl _
  | node x d l xr h =>
    cases l with
    | nil => exact List.Perm.refl _
    | node y e yl yr hy =>
      simp only [rotR, addrs_mk, addrs]
      rw [List.perm_iff_count]
      intro b
      simp only [List.count_cons, List.count_append]
      omega

theorem rotL_toList (t : Tree K) : t.rotL.toList = t.toList := by
  cases t with
  | nil => rfl
  | node x d xl r h =>
    cases r with
    | nil => rfl
    | node y e yl yr hy => simp [rotL, toList]

theorem rotR_toList (t : Tree K) : t.rotR.toList = t.toList := by
  cases t with
  | nil => rfl
  | node x d l xr h =>
    cases l with
    | nil => rfl
    | node y e yl yr hy => simp [rotR, toList]

theorem rotL_pos {t : Tree K} (h : t.Pos) : t.rotL.Pos := by
  cases t with
  | nil => exact h
  | node x d xl r hx =>
    cases r with
    | nil => exact h
    | node y e yl yr hy => exact (h.2.1.mk h.2.2.2.1).mk h.2.2.2.2

theorem rotR_pos {t : Tree K} (h : t.Pos) : t.rotR.Pos := by
  cases t with
  | nil => exact h
  | node x d l xr hx =>
    cases l with
    | nil => exact h
    | node y e yl yr hy => exact h.2.1.2.1.mk (h.2.1.2.2.mk h.2.2)

theorem rotL_ne_nil {t : Tree K} (h : t ≠ nil) : t.rotL ≠ nil := by
  cases t with
  | nil => exact absurd rfl h
  | node x d xl r hx => cases r <;> exact nofun

theorem rotR_ne_nil {t : Tree K} (h : t ≠ nil) : t.rotR ≠ nil := by
  cases t with
  | nil => exact absurd rfl h
  | node x d l xr hx => cases l <;> exact nofun

theorem balance_ne_nil {t : Tree K} (h : t ≠ nil) : t.balance ≠ nil := by
  cases t with
  | nil => exact absurd rfl h
  | node a d l r hh =>
    rw [balance]
    split
    · exact rotL_ne_nil nofun
    · split
      · exact rotR_ne_nil nofun
      · exact nofun

theorem balance_addrs (t : Tree K) : t.balance.addrs.Perm t.addrs := by
  cases t with
  | nil => exact List.Perm.refl _
  | node a d l r h =>
    rw [balance]
    split
    · refine (rotL_addrs _).trans ?_
      rw [addrs_mk, addrs]
      refine ((List.Perm.refl _).append ?_).cons a
      split
      · exact rotR_addrs r
      · exact List.Perm.refl _
    · split
      · refine (rotR_addrs _).trans ?_
        rw [addrs_mk, addrs]
        refine (List.Perm.append ?_ (List.Perm.refl _)).cons a
        split
        · exact rotL_addrs l
        · exact List.Perm.refl _
      · exact List.Perm.refl _

theorem balance_toList (t : Tree K) : t.balance.toList = t.toList := by
  cases t with
  | nil => rfl
  | node a d l r h =>
    rw [balance]
    split
    · rw [rotL_toList, toList_mk, toList]
      split
      · rw [rotR_toList]
      · rfl
    · split
      · rw [rotR_toList, toList_mk, toList]
        split
        · rw [rotL_toList]
        · rfl
      · rfl

theorem balance_pos {a : Nat} {d : K} {l r : Tree K} {h : Int} (hl : l.Pos) (hr : r.Pos) :
    (node a d l r h).balance.Pos := by
  rw [balance]
  split
  · refine rotL_pos (hl.mk ?_)
    split
    · exact rotR_pos hr
    · exact hr
  · split
    · refine rotR_pos (Pos.mk ?_ hr)
      split
      · exact rotL_pos hl
      · exact hl
    · exact hl.mk hr

end Tree

open Avl.Tree

/-! ### Trees in memory -/

/-- **The memory holds the nodes of the tree.** -/
def Holds (m : Heap K) : Tree K → Prop
  | .nil => True
  | .node a d l r h => m.cells a = some ⟨some d, l.ptr, r.ptr, h⟩ ∧ Holds m l ∧ Holds m r

variable {m m' : Heap K} {a : Nat} {d : K} {l r t : Tree K} {h : Int}

theorem Holds.congr (hc : ∀ a ∈ t.addrs, m'.cells a = m.cells a) (ht : Holds m t) : Holds m' t := by
  induction t with
  | nil => trivial
  | node a d l r h ihl ihr =>
    have hm : ∀ b, b ∈ (node a d l r h).addrs ↔ b = a ∨ b ∈ l.addrs ∨ b ∈ r.addrs := by
      intro b
      rw [addrs, List.mem_cons, List.mem_append]
    refine ⟨(hc a ((hm a).mpr (Or.inl rfl))).trans ht.1, ihl ?_ ht.2.1, ihr ?_ ht.2.2⟩
    · exact fun b hb => hc b ((hm b).mpr (Or.inr (Or.inl hb)))
    · exact fun b hb => hc b ((hm b).mpr (Or.inr (Or.inr hb)))

/-- What changes elsewhere does not concern the tree. -/
theorem Holds.only {s : List Nat} (ht : Holds m t) (ho : Only s m m') (hs : t.addrs.Disjoint s) :
    Holds m' t :=
  ht.congr (fun a ha => ho.cells a (fun hm => hs ha hm))

theorem disjoint_one (ha : a ∉ t.addrs) : t.addrs.Disjoint [a] := by
  rwa [List.disjoint_singleton]

theorem Holds.lt_next (ht : Holds m t) : ∀ a ∈ t.addrs, a < m.next := by
  induction t with
  | nil => intro a ha; exact absurd ha (by simp [addrs])
  | node b d l r h ihl ihr =>
    intro a ha
    rw [addrs, List.mem_cons, List.mem_append] at ha
    rcases ha with rfl | ha | ha
    · exact Memory.lt_next ht.1
    · exact ihl ht.2.1 a ha
    · exact ihr ht.2.2 a ha

/-- Changing the node at the root of two trees in memory. -/
theorem Holds.node (hl : Holds m l) (hr : Holds m r) (hal : a ∉ l.addrs) (har : a ∉ r.addrs)
    (ho : Only [a] m m') (ha : m'.cells a = some ⟨some d, l.ptr, r.ptr, h⟩) :
    Holds m' (.node a d l r h) :=
  ⟨ha, hl.only ho (disjoint_one hal), hr.only ho (disjoint_one har)⟩

/-! ### Reading -/

theorem avlNodeGetHeight_spec (ht : Holds m t) : avlNodeGetHeight m t.ptr = some t.ht := by
  cases t with
  | nil => rfl
  | node a d l r h =>
    simp only [ptr_node, avlNodeGetHeight, load, ht.1]
    rfl

theorem avlNodeGetBalance_spec (ht : Holds m t) : avlNodeGetBalance m t.ptr = some t.bal := by
  cases t with
  | nil => rfl
  | node a d l r h =>
    simp only [ptr_node, avlNodeGetBalance, load, ht.1, Option.bind_eq_bind, Option.bind_some,
      avlNodeGetHeight_spec ht.2.1, avlNodeGetHeight_spec ht.2.2]
    rfl

/-! ### Writing one node -/

theorem avlNodeUpdateHeight_spec (ht : Holds m (node a d l r h)) (hal : a ∉ l.addrs)
    (har : a ∉ r.addrs) :
    ∃ m', avlNodeUpdateHeight m (some a) = some m' ∧ Holds m' (mk a d l r) ∧ Only [a] m m' := by
  obtain ⟨m', hs, hc, ho⟩ := store_spec ht.1 ⟨some d, l.ptr, r.ptr, 1 + max l.ht r.ht⟩
  refine ⟨m', ?_, Holds.node ht.2.1 ht.2.2 hal har ho hc, ho⟩
  simp only [avlNodeUpdateHeight, load, ht.1, Option.bind_eq_bind, Option.bind_some,
    avlNodeGetHeight_spec ht.2.1, avlNodeGetHeight_spec ht.2.2, hs]

theorem setLeft_spec {p : Ptr} (ha : m.cells a = some ⟨some d, p, r.ptr, h⟩) (hl : Holds m l)
    (hr : Holds m r) (hal : a ∉ l.addrs) (har : a ∉ r.addrs) :
    ∃ m', setLeft m (some a) l.ptr = some m' ∧ Holds m' (node a d l r h) ∧ Only [a] m m' := by
  obtain ⟨m', hs, hc, ho⟩ := store_spec ha ⟨some d, l.ptr, r.ptr, h⟩
  refine ⟨m', ?_, Holds.node hl hr hal har ho hc, ho⟩
  simp only [setLeft, load, ha, Option.bind_eq_bind, Option.bind_some, hs]

theorem setRight_spec {p : Ptr} (ha : m.cells a = some ⟨some d, l.ptr, p, h⟩) (hl : Holds m l)
    (hr : Holds m r) (hal : a ∉ l.addrs) (har : a ∉ r.addrs) :
    ∃ m', setRight m (some a) r.ptr = some m' ∧ Holds m' (node a d l r h) ∧ Only [a] m m' := by
  obtain ⟨m', hs, hc, ho⟩ := store_spec ha ⟨some d, l.ptr, r.ptr, h⟩
  refine ⟨m', ?_, Holds.node hl hr hal har ho hc, ho⟩
  simp only [setRight, load, ha, Option.bind_eq_bind, Option.bind_some, hs]

/-! ### Rotations -/

/-- **A left rotation**, of a node that has a right child. -/
theorem avlTreeLeftRotate_spec {x : Nat} {xl : Tree K} {hx : Int} (hr : r ≠ nil)
    (ht : Holds m (node x d xl r hx)) (hn : (node x d xl r hx).addrs.Nodup) :
    ∃ m', avlTreeLeftRotate m (some x) = some ((node x d xl r hx).rotL.ptr, m') ∧
      Holds m' (node x d xl r hx).rotL ∧ Only (x :: r.addrs) m m' := by
  obtain _ | ⟨y, e, yl, yr, hy⟩ := r
  · exact absurd rfl hr
  obtain ⟨hxl, hxy, _, hn', hdis⟩ := nodup_node.mp hn
  obtain ⟨hyl, hyr, _, _, _⟩ := nodup_node.mp hn'
  rw [addrs, List.mem_cons, List.mem_append, not_or, not_or] at hxy
  obtain ⟨hne, hxyl, hxyr⟩ := hxy
  have hyxl : y ∉ xl.addrs := fun hm => hdis hm (List.mem_cons_self ..)
  obtain ⟨hcx, hhxl, hcy, hhyl, hhyr⟩ := ht
  -- the two assignments
  obtain ⟨m₁, hs₁, hc₁, ho₁⟩ := store_spec hcy ⟨some e, some x, yr.ptr, hy⟩
  have hcx₁ : m₁.cells x = some ⟨some d, xl.ptr, some y, hx⟩ :=
    (ho₁.cells x (by rwa [List.mem_singleton])).trans hcx
  obtain ⟨m₂, hs₂, hc₂, ho₂⟩ := store_spec hcx₁ ⟨some d, xl.ptr, yl.ptr, hx⟩
  have hX : Holds m₂ (node x d xl yl hx) :=
    Holds.node (hhxl.only ho₁ (disjoint_one hyxl)) (hhyl.only ho₁ (disjoint_one hyl)) hxl hxyl ho₂ hc₂
  -- the two heights
  obtain ⟨m₃, hs₃, hX₃, ho₃⟩ := avlNodeUpdateHeight_spec hX hxl hxyl
  have hY : Holds m₃ (node y e (mk x d xl yl) yr hy) := by
    refine ⟨?_, hX₃, ?_⟩
    · rw [ho₃.cells y (by rw [List.mem_singleton]; exact Ne.symm hne),
        ho₂.cells y (by rw [List.mem_singleton]; exact Ne.symm hne), hc₁]
      rfl
    · exact ((hhyr.only ho₁ (disjoint_one hyr)).only ho₂ (disjoint_one hxyr)).only ho₃
        (disjoint_one hxyr)
  obtain ⟨m₄, hs₄, hY₄, ho₄⟩ := avlNodeUpdateHeight_spec hY (by
    rw [addrs_mk, List.mem_cons, List.mem_append, not_or, not_or]
    exact ⟨Ne.symm hne, hyxl, hyl⟩) hyr
  refine ⟨m₄, ?_, hY₄, ?_⟩
  · simp only [avlTreeLeftRotate, setLeft, setRight, load, hcx, hcy, hcx₁, ptr_node,
      Option.bind_eq_bind, Option.bind_some, hs₁, hs₂, hs₃, hs₄]
    rfl
  · have hx2 : [x] ⊆ x :: (node y e yl yr hy).addrs := by simp
    have hy2 : [y] ⊆ x :: (node y e yl yr hy).addrs := by simp [addrs]
    exact (((ho₁.mono hy2).trans (ho₂.mono hx2)).trans (ho₃.mono hx2)).trans (ho₄.mono hy2)

/-- **A right rotation**, of a node that has a left child. -/
theorem avlTreeRightRotate_spec {x : Nat} {xr : Tree K} {hx : Int} (hl : l ≠ nil)
    (ht : Holds m (node x d l xr hx)) (hn : (node x d l xr hx).addrs.Nodup) :
    ∃ m', avlTreeRightRotate m (some x) = some ((node x d l xr hx).rotR.ptr, m') ∧
      Holds m' (node x d l xr hx).rotR ∧ Only (x :: l.addrs) m m' := by
  obtain _ | ⟨y, e, yl, yr, hy⟩ := l
  · exact absurd rfl hl
  obtain ⟨hxy, hxr, hn', _, hdis⟩ := nodup_node.mp hn
  obtain ⟨hyl, hyr, _, _, _⟩ := nodup_node.mp hn'
  rw [addrs, List.mem_cons, List.mem_append, not_or, not_or] at hxy
  obtain ⟨hne, hxyl, hxyr⟩ := hxy
  have hyxr : y ∉ xr.addrs := fun hm => hdis (List.mem_cons_self ..) hm
  obtain ⟨hcx, ⟨hcy, hhyl, hhyr⟩, hhxr⟩ := ht
  -- the two assignments
  obtain ⟨m₁, hs₁, hc₁, ho₁⟩ := store_spec hcy ⟨some e, yl.ptr, some x, hy⟩
  have hcx₁ : m₁.cells x = some ⟨some d, some y, xr.ptr, hx⟩ :=
    (ho₁.cells x (by rwa [List.mem_singleton])).trans hcx
  obtain ⟨m₂, hs₂, hc₂, ho₂⟩ := store_spec hcx₁ ⟨some d, yr.ptr, xr.ptr, hx⟩
  have hX : Holds m₂ (node x d yr xr hx) :=
    Holds.node (hhyr.only ho₁ (disjoint_one hyr)) (hhxr.only ho₁ (disjoint_one hyxr)) hxyr hxr ho₂ hc₂
  -- the two heights
  obtain ⟨m₃, hs₃, hX₃, ho₃⟩ := avlNodeUpdateHeight_spec hX hxyr hxr
  have hY : Holds m₃ (node y e yl (mk x d yr xr) hy) := by
    refine ⟨?_, ?_, hX₃⟩
    · rw [ho₃.cells y (by rw [List.mem_singleton]; exact Ne.symm hne),
        ho₂.cells y (by rw [List.mem_singleton]; exact Ne.symm hne), hc₁]
      rfl
    · exact ((hhyl.only ho₁ (disjoint_one hyl)).only ho₂ (disjoint_one hxyl)).only ho₃
        (disjoint_one hxyl)
  obtain ⟨m₄, hs₄, hY₄, ho₄⟩ := avlNodeUpdateHeight_spec hY hyl (by
    rw [addrs_mk, List.mem_cons, List.mem_append, not_or, not_or]
    exact ⟨Ne.symm hne, hyr, hyxr⟩)
  refine ⟨m₄, ?_, hY₄, ?_⟩
  · simp only [avlTreeRightRotate, setLeft, setRight, load, hcx, hcy, hcx₁, ptr_node,
      Option.bind_eq_bind, Option.bind_some, hs₁, hs₂, hs₃, hs₄]
    rfl
  · have hx2 : [x] ⊆ x :: (node y e yl yr hy).addrs := by simp
    have hy2 : [y] ⊆ x :: (node y e yl yr hy).addrs := by simp [addrs]
    exact (((ho₁.mono hy2).trans (ho₂.mono hx2)).trans (ho₃.mono hx2)).trans (ho₄.mono hy2)

/-! ### Balancing -/

theorem Tree.ne_nil_of_ht_pos {t : Tree K} (h : 0 < t.ht) : t ≠ nil := by
  rintro rfl
  exact absurd h (Int.lt_irrefl 0)

theorem subset_node_left : a :: l.addrs ⊆ (node a d l r h).addrs := by
  intro b hb
  rw [addrs, List.mem_cons, List.mem_append]
  exact (List.mem_cons.mp hb).imp_right Or.inl

theorem subset_node_right : a :: r.addrs ⊆ (node a d l r h).addrs := by
  intro b hb
  rw [addrs, List.mem_cons, List.mem_append]
  exact (List.mem_cons.mp hb).imp_right Or.inr

/-- A rotation in the right child, and the assignment to `node->right`. -/
theorem rotateRightChild_spec (hr : 0 < r.bal) (hp : r.Pos) (ht : Holds m (node a d l r h))
    (hn : (node a d l r h).addrs.Nodup) :
    ∃ m₁ m₂, avlTreeRightRotate m r.ptr = some (r.rotR.ptr, m₁) ∧
      setRight m₁ (some a) r.rotR.ptr = some m₂ ∧ Holds m₂ (node a d l r.rotR h) ∧
      Only (a :: r.addrs) m m₂ := by
  obtain _ | ⟨y, e, yl, yr, hy⟩ := r
  · exact absurd hr (Int.lt_irrefl 0)
  have hyl : yl ≠ nil := by
    have := hp.2.2.ht_nonneg
    rw [bal] at hr
    exact ne_nil_of_ht_pos (by omega)
  obtain ⟨hal, har, _, hn', hdis⟩ := nodup_node.mp hn
  obtain ⟨m₁, h₁, hH₁, ho₁⟩ := avlTreeRightRotate_spec hyl ht.2.2 hn'
  have hperm := rotR_addrs (node y e yl yr hy)
  have hsub : y :: yl.addrs ⊆ (node y e yl yr hy).addrs := subset_node_left
  have ha₁ := (ho₁.cells a (fun hm => har (hsub hm))).trans ht.1
  have hl₁ : Holds m₁ l := ht.2.1.only ho₁ (fun b hb hb' => hdis hb (hsub hb'))
  obtain ⟨m₂, h₂, hH₂, ho₂⟩ :=
    setRight_spec ha₁ hl₁ hH₁ hal (fun hm => har (hperm.mem_iff.mp hm))
  refine ⟨m₁, m₂, h₁, h₂, hH₂, ?_⟩
  exact (ho₁.mono (fun b hb => List.mem_cons_of_mem _ (hsub hb))).trans (ho₂.mono (by simp))

/-- A rotation in the left child, and the assignment to `node->left`. -/
theorem rotateLeftChild_spec (hl : l.bal < 0) (hp : l.Pos) (ht : Holds m (node a d l r h))
    (hn : (node a d l r h).addrs.Nodup) :
    ∃ m₁ m₂, avlTreeLeftRotate m l.ptr = some (l.rotL.ptr, m₁) ∧
      setLeft m₁ (some a) l.rotL.ptr = some m₂ ∧ Holds m₂ (node a d l.rotL r h) ∧
      Only (a :: l.addrs) m m₂ := by
  obtain _ | ⟨y, e, yl, yr, hy⟩ := l
  · exact absurd hl (Int.lt_irrefl 0)
  have hyr : yr ≠ nil := by
    have := hp.2.1.ht_nonneg
    rw [bal] at hl
    exact ne_nil_of_ht_pos (by omega)
  obtain ⟨hal, har, hn', _, hdis⟩ := nodup_node.mp hn
  obtain ⟨m₁, h₁, hH₁, ho₁⟩ := avlTreeLeftRotate_spec hyr ht.2.1 hn'
  have hperm := rotL_addrs (node y e yl yr hy)
  have hsub : y :: yr.addrs ⊆ (node y e yl yr hy).addrs := subset_node_right
  have ha₁ := (ho₁.cells a (fun hm => hal (hsub hm))).trans ht.1
  have hr₁ : Holds m₁ r := ht.2.2.only ho₁ (fun b hb hb' => hdis (hsub hb') hb)
  obtain ⟨m₂, h₂, hH₂, ho₂⟩ :=
    setLeft_spec ha₁ hH₁ hr₁ (fun hm => hal (hperm.mem_iff.mp hm)) har
  refine ⟨m₁, m₂, h₁, h₂, hH₂, ?_⟩
  exact (ho₁.mono (fun b hb => List.mem_cons_of_mem _ (hsub hb))).trans (ho₂.mono (by simp))

theorem rotL_node_eq (hr : r ≠ nil) : (node a d l r h).rotL = (mk a d l r).rotL := by
  cases r with
  | nil => exact absurd rfl hr
  | node y e yl yr hy => rfl

theorem rotR_node_eq (hl : l ≠ nil) : (node a d l r h).rotR = (mk a d l r).rotR := by
  cases l with
  | nil => exact absurd rfl hl
  | node y e yl yr hy => rfl

/-- **`__avl_tree_balance` balances the tree in memory**, and changes only its
nodes. -/
theorem avlTreeBalance_spec (ht : Holds m (node a d l r h)) (hn : (node a d l r h).addrs.Nodup)
    (hpl : l.Pos) (hpr : r.Pos) :
    ∃ m', avlTreeBalance m (some a) = some ((node a d l r h).balance.ptr, m') ∧
      Holds m' (node a d l r h).balance ∧ Only (node a d l r h).addrs m m' := by
  have hl0 := hpl.ht_nonneg
  have hr0 := hpr.ht_nonneg
  obtain ⟨hal, har, _, _, _⟩ := nodup_node.mp hn
  obtain ⟨m₁, h₁, hH₁, ho₁⟩ := avlNodeUpdateHeight_spec ht hal har
  have hn₁ : (mk a d l r).addrs.Nodup := hn
  have ho₁' : Only (node a d l r h).addrs m m₁ := ho₁.mono (by simp [addrs])
  have hbal := avlNodeGetBalance_spec hH₁
  rw [ptr_mk, Tree.mk, bal] at hbal
  simp only [avlTreeBalance, h₁, hbal, load, hH₁.1, Option.bind_eq_bind, Option.bind_some,
    avlNodeGetBalance_spec hH₁.2.1, avlNodeGetBalance_spec hH₁.2.2]
  rw [Tree.balance]
  by_cases hb : l.ht - r.ht < -1
  · rw [if_pos hb, if_pos hb]
    have hrne : r ≠ nil := ne_nil_of_ht_pos (by omega)
    by_cases hrb : 0 < r.bal
    · rw [if_pos hrb, if_pos hrb]
      obtain ⟨m₂, m₃, h₂, h₃, hH₃, ho₃⟩ := rotateRightChild_spec hrb hpr hH₁ hn₁
      have hrne' := rotR_ne_nil hrne
      have hperm := rotR_addrs r
      have hn₃ : (node a d l r.rotR (1 + max l.ht r.ht)).addrs.Nodup :=
        ((((List.Perm.refl _).append hperm).cons a).nodup_iff).mpr hn
      obtain ⟨m₄, h₄, hH₄, ho₄⟩ := avlTreeLeftRotate_spec hrne' hH₃ hn₃
      rw [rotL_node_eq hrne'] at h₄ hH₄
      refine ⟨m₄, by simp only [h₂, h₃, h₄, Option.bind_some], hH₄, ?_⟩
      refine (ho₁'.trans (ho₃.mono subset_node_right)).trans (ho₄.mono (fun b hb => ?_))
      exact subset_node_right ((hperm.cons a).mem_iff.mp hb)
    · rw [if_neg hrb, if_neg hrb]
      obtain ⟨m₂, h₂, hH₂, ho₂⟩ := avlTreeLeftRotate_spec hrne hH₁ hn₁
      exact ⟨m₂, h₂, hH₂, ho₁'.trans (ho₂.mono subset_node_right)⟩
  · rw [if_neg hb, if_neg hb]
    by_cases hb' : 1 < l.ht - r.ht
    · rw [if_pos hb', if_pos hb']
      have hlne : l ≠ nil := ne_nil_of_ht_pos (by omega)
      by_cases hlb : l.bal < 0
      · rw [if_pos hlb, if_pos hlb]
        obtain ⟨m₂, m₃, h₂, h₃, hH₃, ho₃⟩ := rotateLeftChild_spec hlb hpl hH₁ hn₁
        have hlne' := rotL_ne_nil hlne
        have hperm := rotL_addrs l
        have hn₃ : (node a d l.rotL r (1 + max l.ht r.ht)).addrs.Nodup :=
          (((hperm.append (List.Perm.refl _)).cons a).nodup_iff).mpr hn
        obtain ⟨m₄, h₄, hH₄, ho₄⟩ := avlTreeRightRotate_spec hlne' hH₃ hn₃
        rw [rotR_node_eq hlne'] at h₄ hH₄
        refine ⟨m₄, by simp only [h₂, h₃, h₄, Option.bind_some], hH₄, ?_⟩
        refine (ho₁'.trans (ho₃.mono subset_node_left)).trans (ho₄.mono (fun b hb => ?_))
        exact subset_node_left ((hperm.cons a).mem_iff.mp hb)
      · rw [if_neg hlb, if_neg hlb]
        obtain ⟨m₂, h₂, hH₂, ho₂⟩ := avlTreeRightRotate_spec hlne hH₁ hn₁
        exact ⟨m₂, h₂, hH₂, ho₁'.trans (ho₂.mono subset_node_left)⟩
    · rw [if_neg hb', if_neg hb']
      exact ⟨m₁, rfl, hH₁, ho₁'⟩

end DataStructures.Avl
