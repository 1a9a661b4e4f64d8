import DataStructures.Tree.Avl.Shape

/-!
# What the recursive functions compute

`Tree.found`, `Tree.insert` and `Tree.delete` are the functional counterparts of
`__avl_tree_lookup`, `__avl_tree_insert` and `__avl_tree_delete`.  The theorems
`lookupHelper_spec` and `insertHelper_spec` say that on a tree in memory the code
computes them, for every outcome of the allocations; each is by induction on the
tree, and `insertLeft_spec` and `insertRight_spec` are its steps.  The deletion is in
the next module.

`Tree.insert` is the insertion that succeeds.  When an allocation fails the code
returns NULL, and `Tree.cut` is what is left at the root.  `Tree.delete` takes the
outcomes, and returns the empty tree for NULL.
-/

namespace DataStructures.Avl

open Lib Memory

variable {K : Type}

namespace Tree

/-- The number of levels. -/
def depth : Tree K → Nat
  | nil => 0
  | node _ _ l r _ => 1 + max l.depth r.depth

def isNil : Tree K → Bool
  | nil => true
  | node _ _ _ _ _ => false

/-- The search. -/
def found (c : Comparison K) (k : K) : Tree K → Bool
  | nil => false
  | node _ d l r _ =>
      if c.cmp k d < 0 then l.found c k
      else if 0 < c.cmp k d then r.found c k
      else true

/-- The insertion, with `b` as the address of the new node. -/
def insert (c : Comparison K) (k : K) (b : Nat) : Tree K → Tree K
  | nil => node b k nil nil 1
  | node a d l r h =>
      if c.cmp k d < 0 then (node a d (l.insert c k b) r h).balance
      else if 0 < c.cmp k d then (node a d l (r.insert c k b) h).balance
      else node a d l r h

/-- What a failed insertion leaves at the root: the child on the side of `k` is
NULL. -/
def cut (c : Comparison K) (k : K) : Tree K → Tree K
  | nil => nil
  | node a d l r h => if c.cmp k d < 0 then node a d nil r h else node a d l nil h

/-- The first node in order. -/
def minNode : Tree K → Option (Nat × K)
  | nil => none
  | node a d l _ _ => l.minNode.or (some (a, d))

/-- The content of the root of a tree at another address. -/
def moveTo (a : Nat) : Tree K → Tree K
  | nil => nil
  | node _ d l r h => node a d l r h

/-- The deletion, and the outcomes left. -/
def delete (c : Comparison K) : Tree K → K → Outcomes → Tree K × Outcomes
  | nil, _, o => (nil, o)
  | node a d l r h, k, o =>
      if c.cmp k d < 0 then
        ((node a d (l.delete c k o).1 r h).balance, (l.delete c k o).2)
      else if 0 < c.cmp k d then
        ((node a d l (r.delete c k o).1 h).balance, (r.delete c k o).2)
      else if l.isNil && r.isNil then (nil, o)
      else if !o.first then (nil, o.rest)
      else if l.isNil then ((r.moveTo a).balance, o.rest)
      else if r.isNil then ((l.moveTo a).balance, o.rest)
      else
        let key := (r.minNode.map Prod.snd).getD d
        ((node a key l (r.delete c key o.rest).1 h).balance, (r.delete c key o.rest).2)

/-! ### Nodes and heights of the results -/

variable {c : Comparison K} {k : K}

theorem isNil_iff {t : Tree K} : t.isNil = true ↔ t = nil := by
  cases t <;> simp [isNil]

theorem isNil_eq_false {t : Tree K} : t.isNil = false ↔ t ≠ nil := by
  cases t <;> simp [isNil]

theorem ptr_isSome {t : Tree K} : t.ptr.isSome = !t.isNil := by cases t <;> rfl

theorem insert_ne_nil (t : Tree K) (b : Nat) : t.insert c k b ≠ nil := by
  cases t with
  | nil => exact nofun
  | node a d l r h =>
    rw [insert]
    split
    · exact balance_ne_nil nofun
    · split
      · exact balance_ne_nil nofun
      · exact nofun

theorem insert_pos {t : Tree K} (b : Nat) (h : t.Pos) : (t.insert c k b).Pos := by
  induction t with
  | nil => exact ⟨Int.le_refl 1, trivial, trivial⟩
  | node a d l r hh ihl ihr =>
    rw [insert]
    split
    · exact balance_pos (ihl h.2.1) h.2.2
    · split
      · exact balance_pos h.2.1 (ihr h.2.2)
      · exact h

theorem insert_addrs (t : Tree K) (b : Nat) :
    (t.insert c k b).addrs.Perm (if t.found c k then t.addrs else b :: t.addrs) := by
  induction t with
  | nil => exact List.Perm.refl _
  | node a d l r h ihl ihr =>
    rw [insert, found]
    by_cases h1 : c.cmp k d < 0
    · rw [if_pos h1, if_pos h1]
      refine (balance_addrs _).trans ?_
      rw [addrs, addrs]
      refine ((ihl.append (List.Perm.refl _)).cons a).trans ?_
      split
      · exact List.Perm.refl _
      · exact List.Perm.swap b a _
    · rw [if_neg h1, if_neg h1]
      by_cases h2 : 0 < c.cmp k d
      · rw [if_pos h2, if_pos h2]
        refine (balance_addrs _).trans ?_
        rw [addrs, addrs]
        refine (((List.Perm.refl _).append ihr).cons a).trans ?_
        split
        · exact List.Perm.refl _
        · exact (List.perm_middle.cons a).trans (List.Perm.swap b a _)
      · rw [if_neg h2, if_neg h2, if_pos rfl]

theorem insert_nodup {t : Tree K} {b : Nat} (h : t.addrs.Nodup) (hb : b ∉ t.addrs) :
    (t.insert c k b).addrs.Nodup := by
  rw [(insert_addrs t b).nodup_iff]
  split
  · exact h
  · exact List.nodup_cons.mpr ⟨hb, h⟩

theorem mem_of_mem_insert {t : Tree K} {b e : Nat} (h : e ∈ (t.insert c k b).addrs) :
    e = b ∨ e ∈ t.addrs := by
  have := (insert_addrs t b).mem_iff.mp h
  split at this
  · exact Or.inr this
  · exact List.mem_cons.mp this

theorem moveTo_count {t : Tree K} (a b : Nat) :
    (t.moveTo a).addrs.count b ≤ [a].count b + t.addrs.count b := by
  cases t with
  | nil => exact Nat.zero_le _
  | node e d l r h =>
    simp only [moveTo, addrs, List.count_cons, List.count_nil]
    omega

theorem moveTo_balance_pos {t : Tree K} (a : Nat) (h : t.Pos) : (t.moveTo a).balance.Pos := by
  cases t with
  | nil => exact h
  | node b d l r hh => exact balance_pos h.2.1 h.2.2

theorem delete_pos : ∀ {t : Tree K} (k : K) (o : Outcomes), t.Pos → (t.delete c k o).1.Pos := by
  intro t
  induction t with
  | nil => intro _ _ h; exact h
  | node a d l r hh ihl ihr =>
    intro k o h
    rw [delete]
    split
    · exact balance_pos (h := hh) (ihl k o h.2.1) h.2.2
    · split
      · exact balance_pos (h := hh) h.2.1 (ihr k o h.2.2)
      · split
        · trivial
        · split
          · trivial
          · split
            · exact moveTo_balance_pos a h.2.2
            · split
              · exact moveTo_balance_pos a h.2.1
              · exact balance_pos (h := hh) h.2.1 (ihr _ _ h.2.2)

theorem balance_count (t : Tree K) (b : Nat) : t.balance.addrs.count b = t.addrs.count b :=
  (balance_addrs t).count_eq b

/-- A deletion brings in no node. -/
theorem delete_count (b : Nat) : ∀ {t : Tree K} (k : K) (o : Outcomes),
    (t.delete c k o).1.addrs.count b ≤ t.addrs.count b := by
  intro t
  induction t with
  | nil => intro _ _; exact Nat.le_refl _
  | node a d l r hh ihl ihr =>
    intro k o
    have hl := moveTo_count (t := l) a b
    have hr := moveTo_count (t := r) a b
    rw [List.count_cons, List.count_nil] at hl hr
    rw [delete]
    split
    · have := ihl k o
      simp only [balance_count, addrs, List.count_cons, List.count_append]
      omega
    · split
      · have := ihr k o
        simp only [balance_count, addrs, List.count_cons, List.count_append]
        omega
      · split
        · exact Nat.zero_le _
        · split
          · exact Nat.zero_le _
          · split
            · simp only [balance_count, addrs, List.count_cons, List.count_append]
              omega
            · split
              · simp only [balance_count, addrs, List.count_cons, List.count_append]
                omega
              · have := ihr ((r.minNode.map Prod.snd).getD d) o.rest
                simp only [balance_count, addrs, List.count_cons, List.count_append]
                omega

theorem delete_nodup {t : Tree K} (k : K) (o : Outcomes) (h : t.addrs.Nodup) :
    (t.delete c k o).1.addrs.Nodup := by
  rw [List.nodup_iff_count_le_one] at h ⊢
  exact fun b => Nat.le_trans (delete_count b k o) (h b)

theorem mem_of_mem_delete {t : Tree K} {k : K} {o : Outcomes} {b : Nat}
    (h : b ∈ (t.delete c k o).1.addrs) : b ∈ t.addrs := by
  rw [← List.count_pos_iff] at h ⊢
  exact Nat.lt_of_lt_of_le h (delete_count b k o)

/-- When allocations succeed, they go on to. -/
theorem delete_allOk : ∀ (t : Tree K) (k : K), (t.delete c k Outcomes.allOk).2 = Outcomes.allOk := by
  intro t
  induction t with
  | nil => intro _; rfl
  | node a d l r h ihl ihr =>
    intro k
    rw [delete]
    split
    · exact ihl k
    · split
      · exact ihr k
      · split
        · rfl
        · split
          · rfl
          · split
            · rfl
            · split
              · rfl
              · exact ihr _

end Tree

open Avl.Tree

variable {c : Comparison K} {k : K} {m m₁ : Heap K} {a : Nat} {d : K} {l l' r r' t : Tree K} {h : Int}

theorem mem_node {b : Nat} :
    b ∈ (node a d l r h).addrs ↔ b = a ∨ b ∈ l.addrs ∨ b ∈ r.addrs := by
  rw [addrs, List.mem_cons, List.mem_append]

/-- A left child whose nodes are old ones of the left or new. -/
theorem nodup_of_left {d' : K} (hn : (node a d l r h).addrs.Nodup) (hl' : l'.addrs.Nodup)
    (hsub : ∀ b ∈ l'.addrs, b ∈ l.addrs ∨ b ∉ (node a d l r h).addrs) :
    (node a d' l' r h).addrs.Nodup := by
  obtain ⟨hal, har, _, hnr, hdis⟩ := nodup_node.mp hn
  refine nodup_node.mpr ⟨fun hm => ?_, har, hl', hnr, fun b hb hb' => ?_⟩
  · exact (hsub a hm).elim hal (fun h => h (mem_node.mpr (Or.inl rfl)))
  · exact (hsub b hb).elim (fun h => hdis h hb') (fun h => h (mem_node.mpr (Or.inr (Or.inr hb'))))

/-- A right child whose nodes are old ones of the right or new. -/
theorem nodup_of_right {d' : K} (hn : (node a d l r h).addrs.Nodup) (hr' : r'.addrs.Nodup)
    (hsub : ∀ b ∈ r'.addrs, b ∈ r.addrs ∨ b ∉ (node a d l r h).addrs) :
    (node a d' l r' h).addrs.Nodup := by
  obtain ⟨hal, har, hnl, _, hdis⟩ := nodup_node.mp hn
  refine nodup_node.mpr ⟨hal, fun hm => ?_, hnl, hr', fun b hb hb' => ?_⟩
  · exact (hsub a hm).elim har (fun h => h (mem_node.mpr (Or.inl rfl)))
  · exact (hsub b hb').elim (hdis hb) (fun h => h (mem_node.mpr (Or.inr (Or.inl hb))))

/-! ### Lookup -/

/-- **`__avl_tree_lookup`** is the search. -/
theorem lookupHelper_spec : ∀ {t : Tree K} {n : Nat}, Holds m t → t.depth < n →
    avlTreeLookupHelper c n m t.ptr k = some (if t.found c k then 1 else 0) := by
  intro t
  induction t with
  | nil =>
    intro n _ hn
    cases n with
    | zero => omega
    | succ n => rfl
  | node a d l r h ihl ihr =>
    intro n ht hn
    rw [Tree.depth] at hn
    cases n with
    | zero => omega
    | succ n =>
      simp only [ptr_node, avlTreeLookupHelper, load, ht.1, Option.bind_eq_bind, Option.bind_some]
      rw [found]
      split
      · exact ihl ht.2.1 (by omega)
      · split
        · exact ihr ht.2.2 (by omega)
        · rfl

/-! ### Coming back from a child -/

/-- `node->left` is assigned, and the node balanced. -/
theorem backLeft_spec (ht : Holds m (node a d l r h)) (hc : ∀ b ∈ a :: r.addrs, m₁.cells b = m.cells b)
    (hl : Holds m₁ l') (hn : (node a d l' r h).addrs.Nodup) (hpl : l'.Pos) (hpr : r.Pos) :
    ∃ m₂ m₃, setLeft m₁ (some a) l'.ptr = some m₂ ∧ Holds m₂ (node a d l' r h) ∧ Only [a] m₁ m₂ ∧
      avlTreeBalance m₂ (some a) = some ((node a d l' r h).balance.ptr, m₃) ∧
      Holds m₃ (node a d l' r h).balance ∧ Only (node a d l' r h).addrs m₁ m₃ := by
  obtain ⟨hal, har, _, _, _⟩ := nodup_node.mp hn
  have ha₁ := (hc a (List.mem_cons_self ..)).trans ht.1
  have hr₁ : Holds m₁ r := ht.2.2.congr (fun b hb => hc b (List.mem_cons_of_mem _ hb))
  obtain ⟨m₂, h₂, hH₂, ho₂⟩ := setLeft_spec ha₁ hl hr₁ hal har
  obtain ⟨m₃, h₃, hH₃, ho₃⟩ := avlTreeBalance_spec hH₂ hn hpl hpr
  exact ⟨m₂, m₃, h₂, hH₂, ho₂, h₃, hH₃, (ho₂.mono (by simp [addrs])).trans ho₃⟩

/-- `node->right` is assigned, and the node balanced. -/
theorem backRight_spec (ht : Holds m (node a d l r h)) (hc : ∀ b ∈ a :: l.addrs, m₁.cells b = m.cells b)
    (hr : Holds m₁ r') (hn : (node a d l r' h).addrs.Nodup) (hpl : l.Pos) (hpr : r'.Pos) :
    ∃ m₂ m₃, setRight m₁ (some a) r'.ptr = some m₂ ∧ Holds m₂ (node a d l r' h) ∧ Only [a] m₁ m₂ ∧
      avlTreeBalance m₂ (some a) = some ((node a d l r' h).balance.ptr, m₃) ∧
      Holds m₃ (node a d l r' h).balance ∧ Only (node a d l r' h).addrs m₁ m₃ := by
  obtain ⟨hal, har, _, _, _⟩ := nodup_node.mp hn
  have ha₁ := (hc a (List.mem_cons_self ..)).trans ht.1
  have hl₁ : Holds m₁ l := ht.2.1.congr (fun b hb => hc b (List.mem_cons_of_mem _ hb))
  obtain ⟨m₂, h₂, hH₂, ho₂⟩ := setRight_spec ha₁ hl₁ hr hal har
  obtain ⟨m₃, h₃, hH₃, ho₃⟩ := avlTreeBalance_spec hH₂ hn hpl hpr
  exact ⟨m₂, m₃, h₂, hH₂, ho₂, h₃, hH₃, (ho₂.mono (by simp [addrs])).trans ho₃⟩

/-! ### Insertion -/

/-- The two allocations of `__avl_node_create` succeed. -/
def Creates (m : Heap K) : Prop := m.outcomes.first = true ∧ m.outcomes.rest.first = true

/-- The nodes of a memory are still there in a later one, those at `s` apart. -/
structure Keeps (s : List Nat) (m m' : Heap K) : Prop where
  cells : ∀ b, b ∉ s → b < m.next → m'.cells b = m.cells b
  next : m.next ≤ m'.next
  allOk : m.outcomes = Outcomes.allOk → m'.outcomes = Outcomes.allOk

theorem Keeps.refl (s : List Nat) (m : Heap K) : Keeps s m m :=
  ⟨fun _ _ _ => rfl, Nat.le_refl _, fun h => h⟩

/-- Changes at the nodes of `s'`, the new ones apart, come within `u`. -/
theorem Keeps.only {s s' u : List Nat} {m₂ : Heap K} (hk : Keeps s m m₁) (ho : Only s' m₁ m₂)
    (hs : s ⊆ u) (hs' : ∀ b ∈ s', b < m.next → b ∈ u) : Keeps u m m₂ where
  cells := fun b hb hlt => (ho.cells b (fun hm => hb (hs' b hm hlt))).trans
    (hk.cells b (fun hm => hb (hs hm)) hlt)
  next := Nat.le_trans hk.next (Nat.le_of_eq ho.next.symm)
  allOk := fun h => ho.outcomes.trans (hk.allOk h)

/-- **`__avl_node_create`.** -/
theorem avlNodeCreate_spec (m : Heap K) (k : K) : ∃ p m', avlNodeCreate m k = some (p, m') ∧
    Keeps [] m m' ∧ (Creates m → p = some m.next ∧ Holds m' (node m.next k nil nil 1)) ∧
    (¬ Creates m → p = none) := by
  by_cases h1 : m.outcomes.first = true
  · obtain ⟨m₁, hm, hc, hcells, hnext, hout⟩ := malloc_ok (N := AvlTreeNode K) h1 ⟨none, none, none, 0⟩
    have hc' : m₁.ask.2.cells m.next = some ⟨none, none, none, 0⟩ := hc
    have hask : m₁.ask.1 = m.outcomes.rest.first := by rw [ask, hout]
    have hkeep : ∀ {m' : Heap K}, Only [m.next] m₁.ask.2 m' → Keeps [] m m' := by
      intro m' ho
      refine ⟨fun b _ hb => ?_, ?_, fun h => ?_⟩
      · rw [ho.cells b (by rw [List.mem_singleton]; omega)]
        exact hcells b (by omega)
      · rw [ho.next]
        exact Nat.le_of_lt (Nat.lt_of_lt_of_eq (Nat.lt_succ_self _) hnext.symm)
      · rw [ho.outcomes]
        exact (congrArg Outcomes.rest hout).trans (by rw [h]; rfl)
    by_cases h2 : m.outcomes.rest.first = true
    · obtain ⟨m₂, hs, hc₂, ho⟩ := store_spec hc' ⟨some k, none, none, 1⟩
      refine ⟨some m.next, m₂, ?_, hkeep ho, fun _ => ⟨rfl, hc₂, trivial, trivial⟩,
        fun hn => absurd ⟨h1, h2⟩ hn⟩
      simp only [avlNodeCreate, hm, Option.isNone_some, Bool.false_eq_true, if_false, hask, h2,
        Bool.not_true, hs, Option.bind_eq_bind, Option.bind_some]
      rfl
    · obtain ⟨m₂, hs, hc₂, ho⟩ := free_spec hc'
      refine ⟨none, m₂, ?_, hkeep ho, fun hn => absurd hn.2 h2, fun _ => rfl⟩
      rw [Bool.not_eq_true] at h2
      simp only [avlNodeCreate, hm, Option.isNone_some, Bool.false_eq_true, if_false, hask, h2,
        Bool.not_false, if_true, hs, Option.bind_eq_bind, Option.bind_some]
      rfl
  · have h1' : m.outcomes.first = false := Bool.not_eq_true _ ▸ h1
    refine ⟨none, m.ask.2, ?_, ⟨fun _ _ _ => rfl, Nat.le_refl _, fun h => ?_⟩,
      fun hn => absurd hn.1 h1, fun _ => rfl⟩
    · simp only [avlNodeCreate, malloc_fail h1', Option.isNone_none, if_true]
      rfl
    · exact absurd (congrFun h 0) h1

/-- What a run of the insertion has done, with `p` as its result: it has carried out
the insertion if `k` was there or the node could be created, and returned NULL if not. -/
structure Inserted (c : Comparison K) (k : K) (m : Heap K) (t : Tree K) (p : Ptr) (m' : Heap K) :
    Prop where
  keeps : Keeps t.addrs m m'
  ok : t.found c k = true ∨ Creates m → p = (t.insert c k m.next).ptr ∧ Holds m' (t.insert c k m.next)
  fail : t.found c k = false → ¬ Creates m → p = none ∧ Holds m' (t.cut c k)

theorem insert_ptr_isNone (t : Tree K) (b : Nat) : (t.insert c k b).ptr.isNone = false := by
  rw [← Option.not_isSome, ptr_isSome, isNil_eq_false.mpr (insert_ne_nil t b)]
  rfl

/-- The way back from the insertion into the child `x` of `t`, whose pointer `f` assigns: a new
child is balanced in, and for NULL the insertion ends. -/
theorem Inserted.back {x : Tree K} {p : Ptr} {f : Ptr → Option (Heap K)}
    (hi : Inserted c k m x p m₁) (hsub : x.addrs ⊆ t.addrs)
    (hfound : t.found c k = x.found c k)
    (hok : Holds m₁ (x.insert c k m.next) → ∃ m₂ m₃, f (x.insert c k m.next).ptr = some m₂ ∧
      avlTreeBalance m₂ (some a) = some ((t.insert c k m.next).ptr, m₃) ∧
      Holds m₃ (t.insert c k m.next) ∧ Only (m.next :: t.addrs) m₁ m₃)
    (hfail : ∃ m₂, f none = some m₂ ∧ Holds m₂ (t.cut c k) ∧ Only t.addrs m₁ m₂) :
    ∃ q m', (do
        let m ← f p
        if p.isNone then return (none, m)
        avlTreeBalance m (some a)) = some (q, m') ∧ Inserted c k m t q m' := by
  by_cases hgood : x.found c k = true ∨ Creates m
  · obtain ⟨rfl, hH₁⟩ := hi.ok hgood
    obtain ⟨m₂, m₃, h₂, h₃, hH₃, ho₃⟩ := hok hH₁
    refine ⟨(t.insert c k m.next).ptr, m₃, ?_, hi.keeps.only ho₃ hsub ?_, ?_, ?_⟩
    · simp only [h₂, h₃, insert_ptr_isNone, Option.bind_eq_bind, Option.bind_some,
        Bool.false_eq_true, if_false]
    · intro b hb hlt
      exact (List.mem_cons.mp hb).resolve_left (Nat.ne_of_lt hlt)
    · exact fun _ => ⟨rfl, hH₃⟩
    · intro hf hcr
      rw [hfound] at hf
      exact absurd (hgood.resolve_right hcr) (by rw [hf]; exact Bool.false_ne_true)
  · have hbad := not_or.mp hgood
    obtain ⟨rfl, _⟩ := hi.fail (Bool.not_eq_true _ ▸ hbad.1) hbad.2
    obtain ⟨m₂, h₂, hH₂, ho₂⟩ := hfail
    refine ⟨none, m₂, ?_, hi.keeps.only ho₂ hsub (fun b hb _ => hb), ?_, ?_⟩
    · simp only [h₂, Option.bind_eq_bind, Option.bind_some, Option.isNone_none, if_true]
      rfl
    · intro hg
      rw [hfound] at hg
      exact absurd hg hgood
    · exact fun _ _ => ⟨rfl, hH₂⟩

/-- An insertion into a child brings in no other address of the tree. -/
theorem mem_or_fresh {x t : Tree K} {n : Nat} (hfresh : n ∉ t.addrs) :
    ∀ b ∈ (x.insert c k n).addrs, b ∈ x.addrs ∨ b ∉ t.addrs := by
  intro b hb
  obtain rfl | hb := mem_of_mem_insert hb
  · exact Or.inr hfresh
  · exact Or.inl hb

/-- **The insertion has gone to the left.** -/
theorem insertLeft_spec {p : Ptr} (ht : Holds m (node a d l r h)) (hnd : (node a d l r h).addrs.Nodup)
    (hp : (node a d l r h).Pos) (hi : Inserted c k m l p m₁) (h1 : c.cmp k d < 0) :
    ∃ q m', (do
        let m ← setLeft m₁ (some a) p
        if p.isNone then return (none, m)
        avlTreeBalance m (some a)) = some (q, m') ∧ Inserted c k m (node a d l r h) q m' := by
  obtain ⟨hal, har, hnl, hnr, hdis⟩ := nodup_node.mp hnd
  have hfresh : m.next ∉ (node a d l r h).addrs := fun hm => Nat.lt_irrefl _ (ht.lt_next _ hm)
  have hsub : l.addrs ⊆ (node a d l r h).addrs := fun b hb => mem_node.mpr (Or.inr (Or.inl hb))
  have hc : ∀ b ∈ a :: r.addrs, m₁.cells b = m.cells b := by
    intro b hb
    rcases List.mem_cons.mp hb with rfl | hb
    · exact hi.keeps.cells _ hal (Memory.lt_next ht.1)
    · exact hi.keeps.cells b (fun hbl => hdis hbl hb) (ht.2.2.lt_next b hb)
  refine hi.back (f := setLeft m₁ (some a)) hsub (by rw [found, if_pos h1]) ?_ ?_
  · intro hH₁
    have hfl : m.next ∉ l.addrs := fun hm => hfresh (hsub hm)
    obtain ⟨m₂, m₃, h₂, _, _, h₃, hH₃, ho₃⟩ := backLeft_spec ht hc hH₁
      (nodup_of_left hnd (insert_nodup hnl hfl) (mem_or_fresh hfresh)) (insert_pos _ hp.2.1) hp.2.2
    rw [Tree.insert, if_pos h1]
    refine ⟨m₂, m₃, h₂, h₃, hH₃, ho₃.mono ?_⟩
    intro b hb
    rw [List.mem_cons, mem_node]
    obtain rfl | hb | hb := mem_node.mp hb
    · exact Or.inr (Or.inl rfl)
    · exact (mem_of_mem_insert hb).imp_right (fun hb => Or.inr (Or.inl hb))
    · exact Or.inr (Or.inr (Or.inr hb))
  · rw [cut, if_pos h1]
    obtain ⟨m₂, h₂, hH₂, ho₂⟩ := setLeft_spec (l := nil)
      ((hc a (List.mem_cons_self ..)).trans ht.1) trivial
      (ht.2.2.congr (fun b hb => hc b (List.mem_cons_of_mem _ hb))) (by simp [addrs]) har
    exact ⟨m₂, h₂, hH₂, ho₂.mono (by simp [addrs])⟩

/-- **The insertion has gone to the right.** -/
theorem insertRight_spec {p : Ptr} (ht : Holds m (node a d l r h))
    (hnd : (node a d l r h).addrs.Nodup) (hp : (node a d l r h).Pos) (hi : Inserted c k m r p m₁)
    (h2 : 0 < c.cmp k d) :
    ∃ q m', (do
        let m ← setRight m₁ (some a) p
        if p.isNone then return (none, m)
        avlTreeBalance m (some a)) = some (q, m') ∧ Inserted c k m (node a d l r h) q m' := by
  obtain ⟨hal, har, hnl, hnr, hdis⟩ := nodup_node.mp hnd
  have h1 : ¬ c.cmp k d < 0 := by omega
  have hfresh : m.next ∉ (node a d l r h).addrs := fun hm => Nat.lt_irrefl _ (ht.lt_next _ hm)
  have hsub : r.addrs ⊆ (node a d l r h).addrs := fun b hb => mem_node.mpr (Or.inr (Or.inr hb))
  have hc : ∀ b ∈ a :: l.addrs, m₁.cells b = m.cells b := by
    intro b hb
    rcases List.mem_cons.mp hb with rfl | hb
    · exact hi.keeps.cells _ har (Memory.lt_next ht.1)
    · exact hi.keeps.cells b (fun hbr => hdis hb hbr) (ht.2.1.lt_next b hb)
  refine hi.back (f := setRight m₁ (some a)) hsub (by rw [found, if_neg h1, if_pos h2]) ?_ ?_
  · intro hH₁
    have hfr : m.next ∉ r.addrs := fun hm => hfresh (hsub hm)
    obtain ⟨m₂, m₃, h₂, _, _, h₃, hH₃, ho₃⟩ := backRight_spec ht hc hH₁
      (nodup_of_right hnd (insert_nodup hnr hfr) (mem_or_fresh hfresh)) hp.2.1 (insert_pos _ hp.2.2)
    rw [Tree.insert, if_neg h1, if_pos h2]
    refine ⟨m₂, m₃, h₂, h₃, hH₃, ho₃.mono ?_⟩
    intro b hb
    rw [List.mem_cons, mem_node]
    obtain rfl | hb | hb := mem_node.mp hb
    · exact Or.inr (Or.inl rfl)
    · exact Or.inr (Or.inr (Or.inl hb))
    · exact (mem_of_mem_insert hb).imp_right (fun hb => Or.inr (Or.inr hb))
  · rw [cut, if_neg h1]
    obtain ⟨m₂, h₂, hH₂, ho₂⟩ := setRight_spec (r := nil)
      ((hc a (List.mem_cons_self ..)).trans ht.1)
      (ht.2.1.congr (fun b hb => hc b (List.mem_cons_of_mem _ hb))) trivial hal (by simp [addrs])
    exact ⟨m₂, h₂, hH₂, ho₂.mono (by simp [addrs])⟩

/-- **`__avl_tree_insert`**, for every outcome of the allocations. -/
theorem insertHelper_spec : ∀ {t : Tree K} {n : Nat}, Holds m t → t.addrs.Nodup → t.Pos →
    t.depth < n →
    ∃ p m', avlTreeInsertHelper c n m t.ptr k = some (p, m') ∧ Inserted c k m t p m' := by
  intro t
  induction t with
  | nil =>
    intro n _ _ _ hn
    cases n with
    | zero => omega
    | succ n =>
      obtain ⟨p, m', hr, hk, hok, hfail⟩ := avlNodeCreate_spec m k
      refine ⟨p, m', hr, hk, fun h => ?_, fun _ h => ⟨hfail h, trivial⟩⟩
      exact hok (h.resolve_left Bool.false_ne_true)
  | node a d l r h ihl ihr =>
    intro n ht hnd hp hn
    rw [Tree.depth] at hn
    cases n with
    | zero => omega
    | succ n =>
      obtain ⟨_, _, hnl, hnr, _⟩ := nodup_node.mp hnd
      simp only [ptr_node, avlTreeInsertHelper, load, ht.1, Option.bind_eq_bind, Option.bind_some]
      by_cases h1 : c.cmp k d < 0
      · obtain ⟨p, m₁, hr₁, hi⟩ := ihl (n := n) ht.2.1 hnl hp.2.1 (by omega)
        rw [if_pos h1, hr₁, Option.bind_some]
        exact insertLeft_spec ht hnd hp hi h1
      · rw [if_neg h1]
        by_cases h2 : 0 < c.cmp k d
        · obtain ⟨p, m₁, hr₁, hi⟩ := ihr (n := n) ht.2.2 hnr hp.2.2 (by omega)
          rw [if_pos h2, hr₁, Option.bind_some]
          exact insertRight_spec ht hnd hp hi h2
        · rw [if_neg h2]
          refine ⟨some a, m, rfl, Keeps.refl _ m, fun _ => ?_, fun hf => ?_⟩
          · rw [Tree.insert, if_neg h1, if_neg h2]
            exact ⟨rfl, ht⟩
          · rw [found, if_neg h1, if_neg h2] at hf
            exact absurd hf.symm Bool.false_ne_true

end DataStructures.Avl
