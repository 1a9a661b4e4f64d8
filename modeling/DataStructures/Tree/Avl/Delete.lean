import DataStructures.Tree.Avl.Refine

/-!
# `__avl_tree_delete` computes `Tree.delete`

`deleteHelper_spec`, by induction on the tree, for every outcome of the allocations.
A node with one child takes the content of that child (`avlNodeCopyContent_spec`),
a node with two the datum of the first node on its right
(`avlNodeGetMinNode_spec`, `avlNodeCopyData_spec`).

What the code leaves at the root when it returns NULL is in `deleteHelper_leaf` and
`deleteHelper_fail`: a freed node, or a node without data.  `destroyHelper_spec` is
about `__avl_tree_destroy`, which frees every node once.
-/

namespace DataStructures.Avl

open Lib Memory Avl.Tree

variable {K : Type} {c : Comparison K} {k : K} {m m₁ : Heap K} {a b : Nat} {d : K}
  {l l' r r' t : Tree K} {h : Int}

/-! ### The steps -/

theorem Holds.ask (ht : Holds m t) : Holds m.ask.2 t := Holds.congr (m := m) (fun _ _ => rfl) ht

/-- **`__avl_node_get_min_node`** finds the first node in order. -/
theorem avlNodeGetMinNode_spec : ∀ {t : Tree K}, Holds m t → t ≠ nil → ∃ b key p q i,
    t.minNode = some (b, key) ∧ b ∈ t.addrs ∧ m.cells b = some ⟨some key, p, q, i⟩ ∧
      ∀ n, t.depth ≤ n → avlNodeGetMinNode n m t.ptr = some (some b) := by
  intro t
  induction t with
  | nil => intro _ h; exact absurd rfl h
  | node a d l r h ihl _ =>
    intro ht _
    by_cases hl : l = nil
    · subst hl
      refine ⟨a, d, none, r.ptr, h, rfl, List.mem_cons_self .., ht.1, fun n hn => ?_⟩
      rw [Tree.depth] at hn
      cases n with
      | zero => omega
      | succ n =>
        simp only [ptr_node, avlNodeGetMinNode, load, ht.1, Option.bind_eq_bind, Option.bind_some,
          ptr_nil, Option.isSome_none, Bool.false_eq_true, if_false]
        rfl
    · obtain ⟨b, key, p, q, i, hmin, hb, hc, hget⟩ := ihl ht.2.1 hl
      refine ⟨b, key, p, q, i, by rw [minNode, hmin]; rfl, mem_node.mpr (Or.inr (Or.inl hb)), hc,
        fun n hn => ?_⟩
      rw [Tree.depth] at hn
      cases n with
      | zero => omega
      | succ n =>
        have hsome : l.ptr.isSome = true := by
          rw [ptr_isSome, isNil_eq_false.mpr hl]
          rfl
        simp only [ptr_node, avlNodeGetMinNode, load, ht.1, Option.bind_eq_bind, Option.bind_some,
          hsome, if_true]
        exact hget n (by omega)

/-- **`__avl_node_copy_content`.** -/
theorem avlNodeCopyContent_spec {n₀ : AvlTreeNode K} {key : K} {p q : Ptr} {i : Int}
    (ha : m.cells a = some n₀) (hb : m.cells b = some ⟨some key, p, q, i⟩) :
    ∃ m', avlNodeCopyContent m (some a) (some b) =
        some (if m.outcomes.first then 0 else -1, m') ∧
      m'.cells a = some ⟨if m.outcomes.first then some key else none, p, q, i⟩ ∧
      Only [a] m.ask.2 m' := by
  obtain ⟨m₁, h₁, hc₁, ho₁⟩ := store_spec ha ⟨some key, p, q, i⟩
  have hc₁' : m₁.ask.2.cells a = some ⟨some key, p, q, i⟩ := hc₁
  have hask : m₁.ask.1 = m.outcomes.first := by rw [ask, ho₁.outcomes]
  obtain ⟨m₂, h₂, hc₂, ho₂⟩ := store_spec hc₁' ⟨if m.outcomes.first then some key else none, p, q, i⟩
  refine ⟨m₂, ?_, hc₂, ⟨fun e he => ?_, ?_, ?_⟩⟩
  · simp only [avlNodeCopyContent, load, hb, h₁, hask, Option.bind_eq_bind, Option.bind_some]
    rw [h₂]
    cases m.outcomes.first <;> rfl
  · exact (ho₂.cells e he).trans (ho₁.cells e he)
  · exact ho₂.next.trans ho₁.next
  · rw [ho₂.outcomes, ask, ask]
    exact congrArg Outcomes.rest ho₁.outcomes

/-- **`__avl_node_copy_data`.** -/
theorem avlNodeCopyData_spec {d₀ : Option K} {key : K} {p q p' q' : Ptr} {i i' : Int}
    (ha : m.cells a = some ⟨d₀, p', q', i'⟩) (hb : m.cells b = some ⟨some key, p, q, i⟩) :
    ∃ m', avlNodeCopyData m (some a) (some b) =
        some (if m.outcomes.first then 0 else -1, m') ∧
      m'.cells a = some ⟨if m.outcomes.first then some key else none, p', q', i'⟩ ∧
      Only [a] m.ask.2 m' := by
  have ha' : m.ask.2.cells a = some ⟨d₀, p', q', i'⟩ := ha
  obtain ⟨m₂, h₂, hc₂, ho₂⟩ := store_spec ha' ⟨if m.outcomes.first then some key else none, p', q', i'⟩
  refine ⟨m₂, ?_, hc₂, ho₂⟩
  simp only [avlNodeCopyData, load, hb, ha, Option.bind_eq_bind, Option.bind_some]
  rw [show m.ask.1 = m.outcomes.first from rfl, h₂]
  cases m.outcomes.first <;> rfl

theorem avlNodeDestroy_spec {n₀ : AvlTreeNode K} (ha : m.cells a = some n₀) :
    ∃ m', avlNodeDestroy m (some a) = some m' ∧ m'.cells a = none ∧ Only [a] m m' := by
  obtain ⟨m', h, hc, ho⟩ := free_spec ha
  refine ⟨m', ?_, hc, ho⟩
  simp only [avlNodeDestroy, load, ha, Option.bind_eq_bind, Option.bind_some, h]

/-- The only child of a node is moved into it, and the child's node freed. -/
theorem moveTo_spec (ht : Holds m t) (hne : t ≠ nil) (hnd : t.addrs.Nodup) (hp : t.Pos)
    {n₀ : AvlTreeNode K} (ha : m.cells a = some n₀) (hat : a ∉ t.addrs)
    (ho : m.outcomes.first = true) :
    ∃ m₁ m₂ m₃, avlNodeCopyContent m (some a) t.ptr = some (0, m₁) ∧
      avlNodeDestroy m₁ t.ptr = some m₂ ∧
      avlTreeBalance m₂ (some a) = some ((t.moveTo a).balance.ptr, m₃) ∧
      Holds m₃ (t.moveTo a).balance ∧ Only (a :: t.addrs) m.ask.2 m₃ := by
  obtain _ | ⟨b, key, l, r, h⟩ := t
  · exact absurd rfl hne
  obtain ⟨hbl, hbr, hnl, hnr, hdis⟩ := nodup_node.mp hnd
  rw [mem_node] at hat
  push Not at hat
  obtain ⟨hab, hal, har⟩ := hat
  obtain ⟨m₁, h₁, hc₁, ho₁⟩ := avlNodeCopyContent_spec ha ht.1
  rw [if_pos ho] at h₁ hc₁
  have hb₁ : m₁.cells b = some ⟨some key, l.ptr, r.ptr, h⟩ :=
    (ho₁.cells b (by rw [List.mem_singleton]; exact Ne.symm hab)).trans ht.1
  have hHl : Holds m₁ l :=
    ht.2.1.ask.congr (fun e he => ho₁.cells e (fun hm => hal (List.mem_singleton.mp hm ▸ he)))
  have hHr : Holds m₁ r :=
    ht.2.2.ask.congr (fun e he => ho₁.cells e (fun hm => har (List.mem_singleton.mp hm ▸ he)))
  obtain ⟨m₂, h₂, _, ho₂⟩ := avlNodeDestroy_spec hb₁
  have hH₂ : Holds m₂ (node a key l r h) :=
    ⟨(ho₂.cells a (by rwa [List.mem_singleton])).trans hc₁, hHl.only ho₂ (disjoint_one hbl),
      hHr.only ho₂ (disjoint_one hbr)⟩
  obtain ⟨m₃, h₃, hH₃, ho₃⟩ :=
    avlTreeBalance_spec hH₂ (nodup_node.mpr ⟨hal, har, hnl, hnr, hdis⟩) hp.2.1 hp.2.2
  refine ⟨m₁, m₂, m₃, h₁, h₂, h₃, hH₃, ?_⟩
  have hsub : (node a key l r h).addrs ⊆ a :: (node b key l r h).addrs := by
    intro e he
    rw [mem_node] at he
    rw [List.mem_cons, mem_node]
    exact he.imp_right Or.inr
  exact ((ho₁.mono (by simp)).trans (ho₂.mono (by simp [addrs]))).trans (ho₃.mono hsub)

/-- When `_alloc` fails, the node is left without data. -/
theorem moveTo_fail (ht : Holds m t) (hne : t ≠ nil) {n₀ : AvlTreeNode K}
    (ha : m.cells a = some n₀) (ho : m.outcomes.first = false) :
    ∃ m₁, avlNodeCopyContent m (some a) t.ptr = some (-1, m₁) ∧
      (∃ x, m₁.cells a = some x ∧ x.data = none) ∧ Only [a] m.ask.2 m₁ := by
  obtain _ | ⟨b, key, l, r, h⟩ := t
  · exact absurd rfl hne
  obtain ⟨m₁, h₁, hc₁, ho₁⟩ := avlNodeCopyContent_spec ha ht.1
  rw [if_neg (by rw [ho]; exact Bool.false_ne_true)] at h₁ hc₁
  exact ⟨m₁, h₁, ⟨_, hc₁, rfl⟩, ho₁⟩

/-- When the first datum on the right cannot be copied, the node is left without
data. -/
theorem copyMin_fail {n : Nat} (ht : Holds m (node a d l r h)) (hr : r ≠ nil) (hn : r.depth < n)
    (hf : m.outcomes.first = false) : ∃ m', (do
        let tmp ← avlNodeGetMinNode n m r.ptr
        let (ret, m) ← avlNodeCopyData m (some a) tmp
        if ret ≠ 0 then return (none, m)
        let t ← m.load tmp
        let key ← t.data
        let (right, m) ← avlTreeDeleteHelper c n m r.ptr key
        let m ← setRight m (some a) right
        avlTreeBalance m (some a)) = some (none, m') ∧
      (∃ x, m'.cells a = some x ∧ x.data = none) ∧ Only [a] m.ask.2 m' := by
  obtain ⟨b, key, p, q, i, _, _, hcb, hget⟩ := avlNodeGetMinNode_spec ht.2.2 hr
  obtain ⟨m₁, h₁, hc₁, ho₁⟩ := avlNodeCopyData_spec ht.1 hcb
  rw [if_neg (by rw [hf]; exact Bool.false_ne_true)] at h₁ hc₁
  exact ⟨m₁, by simp [hget n (Nat.le_of_lt hn), h₁], ⟨_, hc₁, rfl⟩, ho₁⟩

/-! ### The whole deletion -/

/-- What a run of the deletion has done: the nodes of `t'` are there, and other
nodes have not been touched. -/
structure Deleted (m : Heap K) (t t' : Tree K) (o : Outcomes) (m' : Heap K) : Prop where
  holds : Holds m' t'
  outcomes : m'.outcomes = o
  next : m'.next = m.next
  cells : ∀ b, b ∉ t.addrs → m'.cells b = m.cells b

/-- The left subtree has become `l'`: it is assigned, and the node balanced. -/
theorem deletedLeft_spec {o : Outcomes} (ht : Holds m (node a d l r h))
    (hnd : (node a d l r h).addrs.Nodup) (hp : (node a d l r h).Pos) (hd : Deleted m l l' o m₁)
    (hnl' : l'.addrs.Nodup) (hpl' : l'.Pos) (hsub : l'.addrs ⊆ l.addrs) :
    ∃ m₂ m₃, setLeft m₁ (some a) l'.ptr = some m₂ ∧
      avlTreeBalance m₂ (some a) = some ((node a d l' r h).balance.ptr, m₃) ∧
      Deleted m (node a d l r h) (node a d l' r h).balance o m₃ := by
  obtain ⟨hal, _, _, _, hdis⟩ := nodup_node.mp hnd
  have hc : ∀ b ∈ a :: r.addrs, m₁.cells b = m.cells b := by
    intro b hb
    refine hd.cells b (fun hbl => ?_)
    rcases List.mem_cons.mp hb with rfl | hb
    · exact hal hbl
    · exact hdis hbl hb
  obtain ⟨m₂, m₃, h₂, _, _, h₃, hH₃, ho₃⟩ := backLeft_spec ht hc hd.holds
    (nodup_of_left hnd hnl' (fun b hb => Or.inl (hsub hb))) hpl' hp.2.2
  refine ⟨m₂, m₃, h₂, h₃, hH₃, ho₃.outcomes.trans hd.outcomes, ho₃.next.trans hd.next,
    fun b hb => ?_⟩
  rw [mem_node] at hb
  push Not at hb
  rw [ho₃.cells b (fun hm => ?_), hd.cells b hb.2.1]
  rcases mem_node.mp hm with hm | hm | hm
  · exact hb.1 hm
  · exact hb.2.1 (hsub hm)
  · exact hb.2.2 hm

/-- The right subtree has become `r'`: it is assigned, and the node balanced. -/
theorem deletedRight_spec {o : Outcomes} (ht : Holds m (node a d l r h))
    (hnd : (node a d l r h).addrs.Nodup) (hp : (node a d l r h).Pos) (hd : Deleted m r r' o m₁)
    (hnr' : r'.addrs.Nodup) (hpr' : r'.Pos) (hsub : r'.addrs ⊆ r.addrs) :
    ∃ m₂ m₃, setRight m₁ (some a) r'.ptr = some m₂ ∧
      avlTreeBalance m₂ (some a) = some ((node a d l r' h).balance.ptr, m₃) ∧
      Deleted m (node a d l r h) (node a d l r' h).balance o m₃ := by
  obtain ⟨_, har, _, _, hdis⟩ := nodup_node.mp hnd
  have hc : ∀ b ∈ a :: l.addrs, m₁.cells b = m.cells b := by
    intro b hb
    refine hd.cells b (fun hbr => ?_)
    rcases List.mem_cons.mp hb with rfl | hb
    · exact har hbr
    · exact hdis hb hbr
  obtain ⟨m₂, m₃, h₂, _, _, h₃, hH₃, ho₃⟩ := backRight_spec ht hc hd.holds
    (nodup_of_right hnd hnr' (fun b hb => Or.inl (hsub hb))) hp.2.1 hpr'
  refine ⟨m₂, m₃, h₂, h₃, hH₃, ho₃.outcomes.trans hd.outcomes, ho₃.next.trans hd.next,
    fun b hb => ?_⟩
  rw [mem_node] at hb
  push Not at hb
  rw [ho₃.cells b (fun hm => ?_), hd.cells b hb.2.2]
  rcases mem_node.mp hm with hm | hm | hm
  · exact hb.1 hm
  · exact hb.2.1 hm
  · exact hb.2.2 (hsub hm)

/-- The part of `__avl_tree_delete` for a node whose datum is equal to the key. -/
def deleteHere (c : Comparison K) (n : Nat) (m : Heap K) (a : Nat) (x : AvlTreeNode K) :
    Option (Ptr × Heap K) :=
  if avlNodeIsLeaf x then do
    let m ← avlNodeDestroy m (some a)
    return (none, m)
  else if avlNodeHasOneChild x then do
    let tmp := if x.left.isSome then x.left else x.right
    let (ret, m) ← avlNodeCopyContent m (some a) tmp
    if ret ≠ 0 then return (none, m)
    let m ← avlNodeDestroy m tmp
    avlTreeBalance m (some a)
  else do
    let tmp ← avlNodeGetMinNode n m x.right
    let (ret, m) ← avlNodeCopyData m (some a) tmp
    if ret ≠ 0 then return (none, m)
    let t ← m.load tmp
    let key ← t.data
    let (right, m) ← avlTreeDeleteHelper c n m x.right key
    let m ← setRight m (some a) right
    avlTreeBalance m (some a)

/-- What it computes. -/
def Tree.deleteRoot (c : Comparison K) (o : Outcomes) : Tree K → Tree K × Outcomes
  | .nil => (nil, o)
  | .node a d l r h =>
      if l.isNil && r.isNil then (nil, o)
      else if !o.first then (nil, o.rest)
      else if l.isNil then ((r.moveTo a).balance, o.rest)
      else if r.isNil then ((l.moveTo a).balance, o.rest)
      else
        let key := (r.minNode.map Prod.snd).getD d
        ((node a key l (r.delete c key o.rest).1 h).balance, (r.delete c key o.rest).2)

theorem deleted_nil {o : Outcomes} {m' : Heap K} (ho : Only [a] { m with outcomes := o } m') :
    Deleted m (node a d l r h) nil o m' :=
  ⟨trivial, ho.outcomes, ho.next, fun b hb => ho.cells b (fun hm =>
    hb (mem_node.mpr (Or.inl (List.mem_singleton.mp hm))))⟩

/-- **A node with one child**, `t`: its content is moved up. -/
theorem deleteOne_spec (ht : Holds m (node a d l r h)) (hsub : t.addrs ⊆ l.addrs ++ r.addrs)
    (hH : Holds m t) (hne : t ≠ nil) (hnd : t.addrs.Nodup) (hp : t.Pos) (hat : a ∉ t.addrs) :
    ∃ m', (do
        let (ret, m) ← avlNodeCopyContent m (some a) t.ptr
        if ret ≠ 0 then return (none, m)
        let m ← avlNodeDestroy m t.ptr
        avlTreeBalance m (some a)) =
        some ((if m.outcomes.first then (t.moveTo a).balance else nil).ptr, m') ∧
      Deleted m (node a d l r h) (if m.outcomes.first then (t.moveTo a).balance else nil)
        m.outcomes.rest m' := by
  by_cases hf : m.outcomes.first = true
  · obtain ⟨m₁, m₂, m₃, h₁, h₂, h₃, hH₃, ho₃⟩ := moveTo_spec hH hne hnd hp ht.1 hat hf
    rw [if_pos hf]
    refine ⟨m₃, by simp [h₁, h₂, h₃], hH₃, ho₃.outcomes, ho₃.next, fun b hb => ?_⟩
    exact ho₃.cells b (fun hm => hb (List.cons_subset_cons a hsub hm))
  · rw [if_neg hf]
    rw [Bool.not_eq_true] at hf
    obtain ⟨m₁, h₁, _, ho₁⟩ := moveTo_fail hH hne ht.1 hf
    exact ⟨m₁, by simp [h₁], deleted_nil ho₁⟩

/-- **A node with two children**: it takes the first datum on its right, which is
deleted there. -/
theorem deleteTwo_spec {n : Nat} (ht : Holds m (node a d l r h)) (hnd : (node a d l r h).addrs.Nodup)
    (hp : (node a d l r h).Pos) (hr : r ≠ nil)
    (ihr : ∀ (k : K) (m : Heap K), Holds m r → r.addrs.Nodup → r.Pos → r.depth < n →
      ∃ m', avlTreeDeleteHelper c n m r.ptr k = some ((r.delete c k m.outcomes).1.ptr, m') ∧
        Deleted m r (r.delete c k m.outcomes).1 (r.delete c k m.outcomes).2 m')
    (hn : r.depth < n) (hf : m.outcomes.first = true) :
    ∃ key m', r.minNode.map Prod.snd = some key ∧ (do
        let tmp ← avlNodeGetMinNode n m r.ptr
        let (ret, m) ← avlNodeCopyData m (some a) tmp
        if ret ≠ 0 then return (none, m)
        let t ← m.load tmp
        let key ← t.data
        let (right, m) ← avlTreeDeleteHelper c n m r.ptr key
        let m ← setRight m (some a) right
        avlTreeBalance m (some a)) =
        some ((node a key l (r.delete c key m.outcomes.rest).1 h).balance.ptr, m') ∧
      Deleted m (node a d l r h) (node a key l (r.delete c key m.outcomes.rest).1 h).balance
        (r.delete c key m.outcomes.rest).2 m' := by
  obtain ⟨hal, har, hnl, hnr, hdis⟩ := nodup_node.mp hnd
  obtain ⟨b, key, p, q, i, hmin, hb, hcb, hget⟩ := avlNodeGetMinNode_spec ht.2.2 hr
  -- the datum is copied
  obtain ⟨m₁, h₁, hc₁, ho₁⟩ := avlNodeCopyData_spec ht.1 hcb
  rw [if_pos hf] at h₁ hc₁
  have hH₁ : Holds m₁ (node a key l r h) := Holds.node ht.2.1.ask ht.2.2.ask hal har ho₁ hc₁
  have hba : b ∉ [a] := fun hm => har (List.mem_singleton.mp hm ▸ hb)
  have hcb₁ : m₁.cells b = some ⟨some key, p, q, i⟩ := (ho₁.cells b hba).trans hcb
  -- and deleted on the right
  obtain ⟨m₂, h₂, hd₂⟩ := ihr key m₁ hH₁.2.2 hnr hp.2.2 hn
  rw [show m₁.outcomes = m.outcomes.rest from ho₁.outcomes] at h₂ hd₂
  have hnd₁ : (node a key l r h).addrs.Nodup := hnd
  have hp₁ : (node a key l r h).Pos := hp
  obtain ⟨m₃, m₄, h₃, h₄, hd₄⟩ := deletedRight_spec hH₁ hnd₁ hp₁ hd₂ (delete_nodup key _ hnr)
    (delete_pos key _ hp.2.2) (fun e he => mem_of_mem_delete he)
  refine ⟨key, m₄, by rw [hmin]; rfl, ?_, hd₄.holds, hd₄.outcomes, hd₄.next.trans ho₁.next,
    fun e he => ?_⟩
  · simp [hget n (Nat.le_of_lt hn), h₁, load, hcb₁, h₂, h₃, h₄]
  · refine (hd₄.cells e he).trans (ho₁.cells e (fun hm => he ?_))
    exact mem_node.mpr (Or.inl (List.mem_singleton.mp hm))

/-- **Deleting the datum of the root.** -/
theorem deleteHere_spec {n : Nat} (ht : Holds m (node a d l r h))
    (hnd : (node a d l r h).addrs.Nodup) (hp : (node a d l r h).Pos)
    (ihr : ∀ (k : K) (m : Heap K), Holds m r → r.addrs.Nodup → r.Pos → r.depth < n →
      ∃ m', avlTreeDeleteHelper c n m r.ptr k = some ((r.delete c k m.outcomes).1.ptr, m') ∧
        Deleted m r (r.delete c k m.outcomes).1 (r.delete c k m.outcomes).2 m')
    (hn : r.depth < n) :
    ∃ m', deleteHere c n m a ⟨some d, l.ptr, r.ptr, h⟩ =
        some (((node a d l r h).deleteRoot c m.outcomes).1.ptr, m') ∧
      Deleted m (node a d l r h) ((node a d l r h).deleteRoot c m.outcomes).1
        ((node a d l r h).deleteRoot c m.outcomes).2 m' := by
  obtain ⟨hal, har, hnl, hnr, _⟩ := nodup_node.mp hnd
  rw [deleteHere, deleteRoot]
  simp only [avlNodeIsLeaf, avlNodeHasOneChild, ptr_isSome]
  cases hl : l.isNil <;> cases hr : r.isNil
  · -- two children
    cases hf : m.outcomes.first
    · obtain ⟨m₁, h₁, _, ho₁⟩ := copyMin_fail ht (isNil_eq_false.mp hr) hn hf
      exact ⟨m₁, by simpa [hf] using h₁, by simpa [hf] using deleted_nil ho₁⟩
    · obtain ⟨key, m', hkey, hr', hd⟩ := deleteTwo_spec ht hnd hp (isNil_eq_false.mp hr) ihr hn hf
      rw [hkey, Option.getD_some]
      exact ⟨m', by simpa using hr', by simpa using hd⟩
  · -- only a left child
    obtain ⟨m', hr', hd⟩ := deleteOne_spec ht (List.subset_append_left _ _) ht.2.1
      (isNil_eq_false.mp hl) hnl hp.2.1 hal
    refine ⟨m', ?_, ?_⟩
    · cases hf : m.outcomes.first <;> simpa [hf] using hr'
    · cases hf : m.outcomes.first <;> simpa [hf] using hd
  · -- only a right child
    obtain ⟨m', hr', hd⟩ := deleteOne_spec ht (List.subset_append_right _ _) ht.2.2
      (isNil_eq_false.mp hr) hnr hp.2.2 har
    refine ⟨m', ?_, ?_⟩
    · cases hf : m.outcomes.first <;> simpa [hf] using hr'
    · cases hf : m.outcomes.first <;> simpa [hf] using hd
  · -- a leaf
    obtain ⟨m', h', _, ho⟩ := avlNodeDestroy_spec ht.1
    refine ⟨m', ?_, deleted_nil ho⟩
    simp [h']

/-- **`__avl_tree_delete`**, for every outcome of the allocations. -/
theorem deleteHelper_spec : ∀ {t : Tree K} {n : Nat} {k : K} {m : Heap K}, Holds m t →
    t.addrs.Nodup → t.Pos → t.depth < n →
    ∃ m', avlTreeDeleteHelper c n m t.ptr k = some ((t.delete c k m.outcomes).1.ptr, m') ∧
      Deleted m t (t.delete c k m.outcomes).1 (t.delete c k m.outcomes).2 m' := by
  intro t
  induction t with
  | nil =>
    intro n k m _ _ _ hn
    cases n with
    | zero => omega
    | succ n => exact ⟨m, rfl, trivial, rfl, rfl, fun _ _ => rfl⟩
  | node a d l r h ihl ihr =>
    intro n k m ht hnd hp hn
    rw [Tree.depth] at hn
    cases n with
    | zero => omega
    | succ n =>
      obtain ⟨_, _, hnl, hnr, _⟩ := nodup_node.mp hnd
      simp only [ptr_node, avlTreeDeleteHelper, load, ht.1, Option.bind_eq_bind, Option.bind_some]
      rw [Tree.delete]
      by_cases h1 : c.cmp k d < 0
      · rw [if_pos h1, if_pos h1]
        obtain ⟨m₁, h₁, hd₁⟩ := ihl (n := n) (k := k) ht.2.1 hnl hp.2.1 (by omega)
        obtain ⟨m₂, m₃, h₂, h₃, hd₃⟩ := deletedLeft_spec ht hnd hp hd₁ (delete_nodup k _ hnl)
          (delete_pos k _ hp.2.1) (fun b hb => mem_of_mem_delete hb)
        exact ⟨m₃, by simp only [h₁, h₂, h₃, Option.bind_some], hd₃⟩
      · rw [if_neg h1, if_neg h1]
        by_cases h2 : 0 < c.cmp k d
        · rw [if_pos h2, if_pos h2]
          obtain ⟨m₁, h₁, hd₁⟩ := ihr (n := n) (k := k) ht.2.2 hnr hp.2.2 (by omega)
          obtain ⟨m₂, m₃, h₂, h₃, hd₃⟩ := deletedRight_spec ht hnd hp hd₁ (delete_nodup k _ hnr)
            (delete_pos k _ hp.2.2) (fun b hb => mem_of_mem_delete hb)
          exact ⟨m₃, by simp only [h₁, h₂, h₃, Option.bind_some], hd₃⟩
        · rw [if_neg h2, if_neg h2]
          exact deleteHere_spec ht hnd hp (fun k m => ihr (n := n) (k := k) (m := m)) (by omega)

/-! ### What is left when the code returns NULL -/

/-- The code at a node whose datum is equal to the key. -/
theorem deleteHelper_here {n : Nat} (ht : Holds m (node a d l r h)) (he : c.cmp k d = 0) :
    avlTreeDeleteHelper c (n + 1) m (some a) k = deleteHere c n m a ⟨some d, l.ptr, r.ptr, h⟩ := by
  simp only [avlTreeDeleteHelper, load, ht.1, Option.bind_eq_bind, Option.bind_some]
  rw [if_neg (by omega), if_neg (by omega)]
  rfl

/-- **The only node is freed**, and NULL returned. -/
theorem deleteHelper_leaf {n : Nat} (ht : Holds m (node a d nil nil h)) (he : c.cmp k d = 0) :
    ∃ m', avlTreeDeleteHelper c (n + 1) m (some a) k = some (none, m') ∧ m'.cells a = none ∧
      Only [a] m m' := by
  obtain ⟨m', hf, hc, ho⟩ := avlNodeDestroy_spec ht.1
  refine ⟨m', ?_, hc, ho⟩
  rw [deleteHelper_here ht he, deleteHere]
  simp [avlNodeIsLeaf, hf]

/-- **The copy of a datum into the root fails**: the root stays, without data, and
NULL is returned. -/
theorem deleteHelper_fail {n : Nat} (ht : Holds m (node a d l r h)) (he : c.cmp k d = 0)
    (hne : l ≠ nil ∨ r ≠ nil) (hf : m.outcomes.first = false) (hn : r.depth < n) :
    ∃ m', avlTreeDeleteHelper c (n + 1) m (some a) k = some (none, m') ∧
      (∃ x, m'.cells a = some x ∧ x.data = none) ∧ Only [a] m.ask.2 m' := by
  rw [deleteHelper_here ht he, deleteHere]
  simp only [avlNodeIsLeaf, avlNodeHasOneChild, ptr_isSome]
  cases hl : l.isNil <;> cases hr : r.isNil
  · obtain ⟨m₁, h₁, hx, ho₁⟩ := copyMin_fail ht (isNil_eq_false.mp hr) hn hf
    exact ⟨m₁, by simpa using h₁, hx, ho₁⟩
  · obtain ⟨m₁, h₁, hx, ho₁⟩ := moveTo_fail ht.2.1 (isNil_eq_false.mp hl) ht.1 hf
    exact ⟨m₁, by simp [h₁], hx, ho₁⟩
  · obtain ⟨m₁, h₁, hx, ho₁⟩ := moveTo_fail ht.2.2 (isNil_eq_false.mp hr) ht.1 hf
    exact ⟨m₁, by simp [h₁], hx, ho₁⟩
  · rw [isNil_iff] at hl hr
    exact hne.elim (absurd hl) (absurd hr)

/-! ### Destroying the tree -/

/-- **`__avl_tree_destroy`** frees the nodes of the tree and no others. -/
theorem destroyHelper_spec : ∀ {t : Tree K} {n : Nat} {m : Heap K}, Holds m t → t.addrs.Nodup →
    t.depth < n → ∃ m', avlTreeDestroyHelper n m t.ptr = some m' ∧
      (∀ b ∈ t.addrs, m'.cells b = none) ∧ Only t.addrs m m' := by
  intro t
  induction t with
  | nil =>
    intro n m _ _ hn
    cases n with
    | zero => omega
    | succ n => exact ⟨m, rfl, fun b hb => absurd hb List.not_mem_nil, Only.refl _ m⟩
  | node a d l r h ihl ihr =>
    intro n m ht hnd hn
    rw [Tree.depth] at hn
    cases n with
    | zero => omega
    | succ n =>
      obtain ⟨hal, har, hnl, hnr, hdis⟩ := nodup_node.mp hnd
      obtain ⟨m₁, h₁, hc₁, ho₁⟩ := ihl (n := n) ht.2.1 hnl (by omega)
      have ha₁ := (ho₁.cells a hal).trans ht.1
      obtain ⟨m₂, h₂, hc₂, ho₂⟩ :=
        ihr (n := n) (ht.2.2.only ho₁ (fun b hb hb' => hdis hb' hb)) hnr (by omega)
      obtain ⟨m₃, h₃, hc₃, ho₃⟩ := avlNodeDestroy_spec ((ho₂.cells a har).trans ha₁)
      refine ⟨m₃, ?_, fun b hb => ?_, ?_⟩
      · simp only [ptr_node, avlTreeDestroyHelper, load, ht.1, h₁, ha₁, h₂, h₃,
          Option.bind_eq_bind, Option.bind_some]
      · by_cases hba : b = a
        · rw [hba, hc₃]
        · rw [ho₃.cells b (by rwa [List.mem_singleton])]
          rcases (mem_node.mp hb).resolve_left hba with hbl | hbr
          · rw [ho₂.cells b (hdis hbl), hc₁ b hbl]
          · exact hc₂ b hbr
      · have hl : l.addrs ⊆ (node a d l r h).addrs := fun b hb => mem_node.mpr (Or.inr (Or.inl hb))
        have hr : r.addrs ⊆ (node a d l r h).addrs := fun b hb => mem_node.mpr (Or.inr (Or.inr hb))
        exact ((ho₁.mono hl).trans (ho₂.mono hr)).trans (ho₃.mono (by simp [addrs]))

end DataStructures.Avl
