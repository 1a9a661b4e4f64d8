import DataStructures.Tree.Avl.Refine

/-!
# The AVL invariant

`IsAvl c t`: the data are strictly increasing in order, every stored height is the
height of its subtree, and the heights of two siblings differ by at most one.

On such a tree an insertion and a deletion put a value into the sequence of data and
take it out (`insert_toList`, `delete_toList`), and the tree stays one:
`IsAvl.insert`, `IsAvl.delete`.  Both come down to `balance_wf`: two subtrees whose
heights differ by at most two are balanced, at the cost of one level.
-/

namespace DataStructures.Avl

open Lib Outcomes

variable {K : Type} {c : Comparison K} {k : K}

namespace Tree

/-- Every stored height is the height of its subtree. -/
def Exact : Tree K → Prop
  | nil => True
  | node a d l r h => h = (node a d l r h).depth ∧ l.Exact ∧ r.Exact

/-- The heights of the children of every node differ by at most one. -/
def Balanced : Tree K → Prop
  | nil => True
  | node _ _ l r _ => l.depth ≤ r.depth + 1 ∧ r.depth ≤ l.depth + 1 ∧ l.Balanced ∧ r.Balanced

/-- Both, in terms of the stored heights. -/
def Wf : Tree K → Prop
  | nil => True
  | node _ _ l r h => h = 1 + max l.ht r.ht ∧ l.ht ≤ r.ht + 1 ∧ r.ht ≤ l.ht + 1 ∧ l.Wf ∧ r.Wf

theorem Exact.ht_eq {t : Tree K} (h : t.Exact) : t.ht = t.depth := by
  cases t with
  | nil => rfl
  | node a d l r hh => exact h.1

theorem wf_iff {t : Tree K} : t.Wf ↔ t.Exact ∧ t.Balanced := by
  induction t with
  | nil => exact ⟨fun _ => ⟨trivial, trivial⟩, fun _ => trivial⟩
  | node a d l r h ihl ihr =>
    rw [Wf, ihl, ihr, Exact, Balanced, depth]
    refine ⟨?_, ?_⟩
    · intro hx
      obtain ⟨h1, h2, h3, ⟨hle, hlb⟩, ⟨hre, hrb⟩⟩ := hx
      rw [hle.ht_eq, hre.ht_eq] at h1 h2 h3
      exact ⟨⟨by omega, hle, hre⟩, by omega, by omega, hlb, hrb⟩
    · intro hx
      obtain ⟨⟨h1, hle, hre⟩, h2, h3, hlb, hrb⟩ := hx
      rw [hle.ht_eq, hre.ht_eq]
      exact ⟨by omega, by omega, by omega, ⟨hle, hlb⟩, ⟨hre, hrb⟩⟩

theorem Wf.ht_nonneg {t : Tree K} (h : t.Wf) : 0 ≤ t.ht := by
  rw [(wf_iff.mp h).1.ht_eq]
  omega

theorem Wf.pos {t : Tree K} (h : t.Wf) : t.Pos := by
  induction t with
  | nil => trivial
  | node a d l r hh ihl ihr =>
    obtain ⟨h1, _, _, hl, hr⟩ := h
    have := hl.ht_nonneg
    exact ⟨by omega, ihl hl, ihr hr⟩

/-! ### Balancing -/

theorem wf_mk {a : Nat} {d : K} {l r : Tree K} (hl : l.Wf) (hr : r.Wf) (h1 : l.ht ≤ r.ht + 1)
    (h2 : r.ht ≤ l.ht + 1) : (mk a d l r).Wf := ⟨rfl, h1, h2, hl, hr⟩

/-- The right child is two levels higher. -/
theorem balance_right_wf {a : Nat} {d : K} {l r : Tree K} (hl : l.Wf) (hr : r.Wf)
    (h : r.ht = l.ht + 2) :
    (mk a d l (if 0 < r.bal then r.rotR else r)).rotL.Wf ∧
      r.ht ≤ (mk a d l (if 0 < r.bal then r.rotR else r)).rotL.ht ∧
      (mk a d l (if 0 < r.bal then r.rotR else r)).rotL.ht ≤ r.ht + 1 := by
  have hl0 := hl.ht_nonneg
  obtain _ | ⟨y, e, yl, yr, hy⟩ := r
  · rw [ht_nil] at h; omega
  obtain ⟨h1, h2, h3, hyl, hyr⟩ := hr
  rw [ht_node] at h ⊢
  rw [bal]
  split
  next hb =>
    -- double rotation: the left child of the right child comes up
    have hyr0 := hyr.ht_nonneg
    obtain _ | ⟨z, f, zl, zr, hz⟩ := yl
    · rw [ht_nil] at hb; omega
    obtain ⟨g1, g2, g3, hzl, hzr⟩ := hyl
    rw [ht_node] at h1 h2 h3 hb
    have hx := wf_mk (a := a) (d := d) hl hzl (by omega) (by omega)
    have hz := wf_mk (a := y) (d := e) hzr hyr (by omega) (by omega)
    refine ⟨wf_mk hx hz ?_ ?_, ?_, ?_⟩
    · rw [ht_mk, ht_mk]; omega
    · rw [ht_mk, ht_mk]; omega
    · change hy ≤ 1 + max (1 + max l.ht zl.ht) (1 + max zr.ht yr.ht); omega
    · change 1 + max (1 + max l.ht zl.ht) (1 + max zr.ht yr.ht) ≤ hy + 1; omega
  next hb =>
    -- single rotation
    have hx := wf_mk (a := a) (d := d) hl hyl (by omega) (by omega)
    refine ⟨wf_mk hx hyr ?_ ?_, ?_, ?_⟩
    · rw [ht_mk]; omega
    · rw [ht_mk]; omega
    · change hy ≤ 1 + max (1 + max l.ht yl.ht) yr.ht; omega
    · change 1 + max (1 + max l.ht yl.ht) yr.ht ≤ hy + 1; omega

/-- The left child is two levels higher. -/
theorem balance_left_wf {a : Nat} {d : K} {l r : Tree K} (hl : l.Wf) (hr : r.Wf)
    (h : l.ht = r.ht + 2) :
    (mk a d (if l.bal < 0 then l.rotL else l) r).rotR.Wf ∧
      l.ht ≤ (mk a d (if l.bal < 0 then l.rotL else l) r).rotR.ht ∧
      (mk a d (if l.bal < 0 then l.rotL else l) r).rotR.ht ≤ l.ht + 1 := by
  have hr0 := hr.ht_nonneg
  obtain _ | ⟨y, e, yl, yr, hy⟩ := l
  · rw [ht_nil] at h; omega
  obtain ⟨h1, h2, h3, hyl, hyr⟩ := hl
  rw [ht_node] at h ⊢
  rw [bal]
  split
  next hb =>
    have hyl0 := hyl.ht_nonneg
    obtain _ | ⟨z, f, zl, zr, hz⟩ := yr
    · rw [ht_nil] at hb; omega
    obtain ⟨g1, g2, g3, hzl, hzr⟩ := hyr
    rw [ht_node] at h1 h2 h3 hb
    have hx := wf_mk (a := a) (d := d) hzr hr (by omega) (by omega)
    have hz := wf_mk (a := y) (d := e) hyl hzl (by omega) (by omega)
    refine ⟨wf_mk hz hx ?_ ?_, ?_, ?_⟩
    · rw [ht_mk, ht_mk]; omega
    · rw [ht_mk, ht_mk]; omega
    · change hy ≤ 1 + max (1 + max yl.ht zl.ht) (1 + max zr.ht r.ht); omega
    · change 1 + max (1 + max yl.ht zl.ht) (1 + max zr.ht r.ht) ≤ hy + 1; omega
  next hb =>
    have hx := wf_mk (a := a) (d := d) hyr hr (by omega) (by omega)
    refine ⟨wf_mk hyl hx ?_ ?_, ?_, ?_⟩
    · rw [ht_mk]; omega
    · rw [ht_mk]; omega
    · change hy ≤ 1 + max yl.ht (1 + max yr.ht r.ht); omega
    · change 1 + max yl.ht (1 + max yr.ht r.ht) ≤ hy + 1; omega

/-- **Balancing** two subtrees whose heights differ by at most two. -/
theorem balance_wf {a : Nat} {d : K} {l r : Tree K} {h : Int} (hl : l.Wf) (hr : r.Wf)
    (h1 : l.ht ≤ r.ht + 2) (h2 : r.ht ≤ l.ht + 2) :
    (node a d l r h).balance.Wf ∧ max l.ht r.ht ≤ (node a d l r h).balance.ht ∧
      (node a d l r h).balance.ht ≤ 1 + max l.ht r.ht ∧
      (l.ht ≤ r.ht + 1 → r.ht ≤ l.ht + 1 → (node a d l r h).balance.ht = 1 + max l.ht r.ht) := by
  rw [balance]
  split
  next hb =>
    obtain ⟨hw, h3, h4⟩ := balance_right_wf (a := a) (d := d) hl hr (by omega)
    exact ⟨hw, by omega, by omega, fun _ _ => by omega⟩
  next hb =>
    split
    next hb' =>
      obtain ⟨hw, h3, h4⟩ := balance_left_wf (a := a) (d := d) hl hr (by omega)
      exact ⟨hw, by omega, by omega, fun _ _ => by omega⟩
    next hb' =>
      rw [ht_mk]
      exact ⟨wf_mk hl hr (by omega) (by omega), by omega, Int.le_refl _, fun _ _ => rfl⟩

theorem moveTo_wf {t : Tree K} (a : Nat) (h : t.Wf) :
    (t.moveTo a).balance.Wf ∧ (t.moveTo a).balance.ht = t.ht := by
  cases t with
  | nil => exact ⟨trivial, rfl⟩
  | node b d l r hh =>
    obtain ⟨h1, h2, h3, hl, hr⟩ := h
    obtain ⟨hw, _, _, he⟩ := balance_wf (a := a) (d := d) (h := hh) hl hr (by omega) (by omega)
    exact ⟨hw, by rw [ht_node, h1]; exact he h2 h3⟩

/-! ### Insertion and deletion keep the tree balanced -/

/-- **An insertion adds at most one level.** -/
theorem insert_wf {t : Tree K} (b : Nat) (h : t.Wf) :
    (t.insert c k b).Wf ∧ t.ht ≤ (t.insert c k b).ht ∧ (t.insert c k b).ht ≤ t.ht + 1 := by
  induction t with
  | nil =>
    have h0 : (0 : Int) ≤ 0 + 1 := by decide
    exact ⟨⟨rfl, h0, h0, trivial, trivial⟩, h0, Int.le_refl 1⟩
  | node a d l r hh ihl ihr =>
    obtain ⟨h1, h2, h3, hl, hr⟩ := h
    rw [insert, ht_node]
    split
    · obtain ⟨hw, h4, h5⟩ := ihl hl
      obtain ⟨hw', h6, h7, h8⟩ := balance_wf (a := a) (d := d) (h := hh) hw hr (by omega) (by omega)
      exact ⟨hw', by omega, by omega⟩
    · split
      · obtain ⟨hw, h4, h5⟩ := ihr hr
        obtain ⟨hw', h6, h7, h8⟩ := balance_wf (a := a) (d := d) (h := hh) hl hw (by omega) (by omega)
        exact ⟨hw', by omega, by omega⟩
      · exact ⟨⟨h1, h2, h3, hl, hr⟩, Int.le_refl _, by rw [ht_node]; omega⟩

/-- **A deletion takes at most one level away.** -/
theorem delete_wf : ∀ {t : Tree K} (k : K), t.Wf →
    (t.delete c k allOk).1.Wf ∧ (t.delete c k allOk).1.ht ≤ t.ht ∧
      t.ht ≤ (t.delete c k allOk).1.ht + 1 := by
  intro t
  induction t with
  | nil =>
    intro k _
    have h0 : (0 : Int) ≤ 0 + 1 := by decide
    exact ⟨trivial, Int.le_refl 0, h0⟩
  | node a d l r hh ihl ihr =>
    intro k h
    obtain ⟨h1, h2, h3, hl, hr⟩ := h
    have hl0 := hl.ht_nonneg
    have hr0 := hr.ht_nonneg
    rw [delete, ht_node]
    split
    · obtain ⟨hw, h4, h5⟩ := ihl k hl
      obtain ⟨hw', h6, h7, h8⟩ := balance_wf (a := a) (d := d) (h := hh) hw hr (by omega) (by omega)
      exact ⟨hw', by dsimp only; omega, by dsimp only; omega⟩
    · split
      · obtain ⟨hw, h4, h5⟩ := ihr k hr
        obtain ⟨hw', h6, h7, h8⟩ := balance_wf (a := a) (d := d) (h := hh) hl hw (by omega) (by omega)
        exact ⟨hw', by dsimp only; omega, by dsimp only; omega⟩
      · rw [first_allOk, Bool.not_true, rest_allOk]
        cases hln : l.isNil <;> cases hrn : r.isNil
        · obtain ⟨hw, h4, h5⟩ := ihr ((r.minNode.map Prod.snd).getD d) hr
          obtain ⟨hw', h6, h7, h8⟩ := balance_wf (a := a) (d := (r.minNode.map Prod.snd).getD d)
            (h := hh) hl hw (by omega) (by omega)
          refine ⟨hw', ?_, ?_⟩ <;>
            simp only [Bool.false_and, Bool.false_eq_true, if_false] <;> omega
        · obtain ⟨hw, he⟩ := moveTo_wf a hl
          rw [isNil_iff.mp hrn, ht_nil] at h1 h2 h3
          refine ⟨hw, ?_, ?_⟩ <;>
            simp only [Bool.false_and, Bool.false_eq_true, if_false, if_true] <;> omega
        · obtain ⟨hw, he⟩ := moveTo_wf a hr
          rw [isNil_iff.mp hln, ht_nil] at h1 h2 h3
          refine ⟨hw, ?_, ?_⟩ <;>
            simp only [Bool.and_false, Bool.false_eq_true, if_false, if_true] <;> omega
        · rw [isNil_iff.mp hln, isNil_iff.mp hrn, ht_nil] at h1
          refine ⟨trivial, ?_, ?_⟩ <;>
            simp only [Bool.and_true, if_true, ht_nil] <;> omega

/-! ### The data in order -/

/-- The datum of the first node. -/
theorem minNode_toList {t : Tree K} (d : K) (h : t ≠ nil) :
    ∃ rest, t.toList = (t.minNode.map Prod.snd).getD d :: rest := by
  induction t with
  | nil => exact absurd rfl h
  | node a e l r hh ihl _ =>
    rw [minNode, toList]
    by_cases hl : l = nil
    · subst hl
      exact ⟨r.toList, rfl⟩
    · obtain ⟨rest, hrest⟩ := ihl hl
      obtain _ | ⟨b, f, ll, lr, hl'⟩ := l
      · exact absurd rfl hl
      · refine ⟨rest ++ e :: r.toList, ?_⟩
        have hsome : ((node b f ll lr hl').minNode).isSome = true := by
          rw [minNode]
          cases ll.minNode <;> rfl
        obtain ⟨x, hx⟩ := Option.isSome_iff_exists.mp hsome
        rw [hx] at hrest ⊢
        rw [hrest]
        rfl

/-- **The search** in a sorted tree finds what is in it. -/
theorem found_iff {t : Tree K} (hs : Sorted c t.toList) : t.found c k = true ↔ Occurs c k t.toList := by
  induction t with
  | nil => exact ⟨fun h => absurd h Bool.false_ne_true, fun ⟨_, hx, _⟩ => absurd hx List.not_mem_nil⟩
  | node a d l r h ihl ihr =>
    rw [toList] at hs ⊢
    obtain ⟨hl, hr, hld, hdr⟩ := sorted_middle.mp hs
    rw [found, occurs_middle]
    split
    next h1 =>
      rw [ihl hl]
      refine ⟨Or.inl, fun ho => ho.resolve_right ?_⟩
      rintro (he | ⟨x, hx, hkx⟩)
      · omega
      · have := c.lt_trans h1 (hdr x hx)
        omega
    next h1 =>
      split
      next h2 =>
        rw [ihr hr]
        refine ⟨fun ho => Or.inr (Or.inr ho), fun ho => ?_⟩
        rcases ho with ⟨x, hx, hkx⟩ | he | ho
        · have := c.lt_trans (hld x hx) ((c.swap d k).mpr h2)
          have := c.swap x k
          omega
        · omega
        · exact ho
      next h2 => exact ⟨fun _ => Or.inr (Or.inl (by omega)), fun _ => rfl⟩

/-- **An insertion** puts the value at its place. -/
theorem insert_toList {t : Tree K} (b : Nat) (hs : Sorted c t.toList) :
    (t.insert c k b).toList = insertSeq c k t.toList := by
  induction t with
  | nil => rfl
  | node a d l r h ihl ihr =>
    rw [toList] at hs ⊢
    obtain ⟨hl, hr, hld, hdr⟩ := sorted_middle.mp hs
    rw [insert]
    split
    next h1 => rw [balance_toList, toList, ihl hl, insertSeq_lt h1]
    next h1 =>
      split
      next h2 => rw [balance_toList, toList, ihr hr, insertSeq_gt hld h2]
      next h2 => rw [insertSeq_eq hld (by omega), toList]

theorem moveTo_toList (a : Nat) (t : Tree K) : (t.moveTo a).toList = t.toList := by
  cases t <;> rfl

/-- **A deletion** takes the value out. -/
theorem delete_toList : ∀ {t : Tree K} (k : K), Sorted c t.toList →
    (t.delete c k allOk).1.toList = eraseSeq c k t.toList := by
  intro t
  induction t with
  | nil => intro k _; rfl
  | node a d l r h ihl ihr =>
    intro k hs
    rw [toList] at hs ⊢
    obtain ⟨hl, hr, hld, hdr⟩ := sorted_middle.mp hs
    rw [delete]
    split
    next h1 => rw [balance_toList, toList, ihl k hl, eraseSeq_lt hdr h1]
    next h1 =>
      split
      next h2 => rw [balance_toList, toList, ihr k hr, eraseSeq_gt hld h2]
      next h2 =>
        rw [first_allOk, Bool.not_true, rest_allOk, eraseSeq_eq hld (by omega)]
        cases hln : l.isNil <;> cases hrn : r.isNil
        · -- the first value on the right comes to the root, and is taken out there
          obtain ⟨rest, hrest⟩ := minNode_toList d (isNil_eq_false.mp hrn)
          simp only [Bool.false_and, Bool.false_eq_true, if_false]
          rw [balance_toList, toList, ihr _ hr, hrest, eraseSeq, if_pos (c.self _)]
        · rw [isNil_iff.mp hrn]
          simp only [Bool.false_and, Bool.false_eq_true, if_false, if_true]
          rw [balance_toList, moveTo_toList, toList, List.append_nil]
        · rw [isNil_iff.mp hln]
          simp only [Bool.and_false, Bool.false_eq_true, if_false, if_true]
          rw [balance_toList, moveTo_toList, toList, List.nil_append]
        · rw [isNil_iff.mp hln, isNil_iff.mp hrn]
          rfl

end Tree

/-! ### The invariant -/

/-- **An AVL tree.** -/
structure IsAvl (c : Comparison K) (t : Tree K) : Prop where
  sorted : Sorted c t.toList
  exact : t.Exact
  balanced : t.Balanced

theorem isAvl_nil : IsAvl c (.nil : Tree K) := ⟨List.Pairwise.nil, trivial, trivial⟩

theorem IsAvl.wf {t : Tree K} (h : IsAvl c t) : t.Wf := Tree.wf_iff.mpr ⟨h.exact, h.balanced⟩

theorem IsAvl.of_wf {t : Tree K} (hs : Sorted c t.toList) (hw : t.Wf) : IsAvl c t :=
  ⟨hs, (Tree.wf_iff.mp hw).1, (Tree.wf_iff.mp hw).2⟩

/-- **An insertion keeps an AVL tree.** -/
theorem IsAvl.insert {t : Tree K} (h : IsAvl c t) (k : K) (b : Nat) : IsAvl c (t.insert c k b) := by
  refine .of_wf ?_ (Tree.insert_wf b h.wf).1
  rw [Tree.insert_toList b h.sorted]
  exact h.sorted.insertSeq

/-- **A deletion keeps an AVL tree.** -/
theorem IsAvl.delete {t : Tree K} (h : IsAvl c t) (k : K) : IsAvl c (t.delete c k allOk).1 := by
  refine .of_wf ?_ (Tree.delete_wf k h.wf).1
  rw [Tree.delete_toList k h.sorted]
  exact h.sorted.eraseSeq

end DataStructures.Avl
