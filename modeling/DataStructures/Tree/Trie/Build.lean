import DataStructures.Tree.Trie.Delete

/-!
# Tries built from words

`trieBuild` makes a root and inserts a list of words.  `Stores t S`: the paths of `t`
are the beginnings of the words of `S`, and the marks are at the words.

`trieBuild_spec`: a trie that has been built stores its words.  `trieBuild_allOk`: it
can be built if the allocations succeed.
-/

namespace DataStructures.Trie

open Lib Memory Trie.Tree

variable {m m' m₀ : Heap} {t t' : Tree} {w : Word} {S ws : List Word} {root : Ptr} {n : Nat}

/-- Inserting words one after the other; `none` also if a node could not be made. -/
def insertAll : Heap → Ptr → List Word → Option Heap
  | m, _, [] => some m
  | m, root, w :: ws => do
      let (r, m) ← trieInsert m root (some (str w))
      if r.isNone then none else insertAll m root ws

/-- A new trie with words: its root, and the memory. -/
def trieBuild (m₀ : Heap) (words : List Word) : Option (Ptr × Heap) := do
  let (root, m) := trieNodeCreate m₀
  if root.isNone then none
  else
    let m ← insertAll m root words
    return (root, m)

/-- **The trie stores the words of `S`** and nothing else. -/
structure Stores (t : Tree) (S : List Word) : Prop where
  sub : ∀ v, t.sub v ≠ nil ↔ v = [] ∨ ∃ w ∈ S, v <+: w
  leafAt : ∀ v, t.leafAt v = true ↔ v ∈ S

theorem Stores.sub_of_ne (h : Stores t S) {v : Word} (hv : v ≠ []) :
    t.sub v ≠ nil ↔ ∃ w ∈ S, v <+: w :=
  (h.sub v).trans ⟨fun hor => hor.resolve_left hv, Or.inr⟩

theorem Stores.leafAt_eq (h : Stores t S) (v : Word) : t.leafAt v = decide (v ∈ S) := by
  rw [Bool.eq_iff_iff, h.leafAt, decide_eq_true_eq]

theorem Stores.add (h : Stores t S) (ha : Adds w t t') : Stores t' (S ++ [w]) where
  sub := fun v => by
    rw [ha.sub, h.sub, or_assoc]
    refine or_congr_right ⟨fun hor => ?_, fun hex => ?_⟩
    · rcases hor with ⟨u, hu, hvu⟩ | hvw
      · exact ⟨u, List.mem_append_left _ hu, hvu⟩
      · exact ⟨w, List.mem_append_right _ List.mem_cons_self, hvw⟩
    · obtain ⟨u, hu, hvu⟩ := hex
      rcases List.mem_append.mp hu with hu | hu
      · exact Or.inl ⟨u, hu, hvu⟩
      · exact Or.inr (List.mem_singleton.mp hu ▸ hvu)
  leafAt := fun v => by
    rw [ha.leafAt, h.leafAt, List.mem_append, List.mem_singleton]

theorem stores_fresh (a : Nat) : Stores (fresh a) [] where
  sub := fun v => by
    cases v with
    | nil => exact iff_of_true Tree.noConfusion (Or.inl rfl)
    | cons c v =>
      rw [fresh, node_sub_cons, nil_sub]
      refine iff_of_false (· rfl) (fun hor => ?_)
      rcases hor with he | ⟨u, hu, _⟩
      · exact List.cons_ne_nil _ _ he
      · exact absurd hu List.not_mem_nil
  leafAt := fun v => by
    refine iff_of_false (fun hv => ?_) List.not_mem_nil
    cases v with
    | nil => exact Bool.noConfusion hv
    | cons c v =>
      rw [leafAt, fresh, node_sub_cons, nil_sub] at hv
      exact Bool.noConfusion hv

/-- What a trie in memory is known to be. -/
structure Good (m : Heap) (root : Ptr) (n : Nat) (t : Tree) : Prop where
  holds : Holds m t
  distinct : t.Distinct
  ne_nil : t ≠ nil
  ptr : t.ptr = root
  deep : t.Deep n

/-- **One insertion.** -/
theorem Good.insert (h : Good m root n t) (hw : w.length < n) :
    ∃ ok m' t', trieInsert m root (some (str w)) = some (if ok then root else none, m') ∧
      Good m' root n t' ∧ (ok = true → Adds w t t') ∧
      (m.outcomes = Outcomes.allOk → ok = true ∧ m'.outcomes = Outcomes.allOk) := by
  obtain ⟨ok, m', t', hr, hi, hdeep, hadds, hall⟩ := trieInsert_spec h.holds h.distinct h.ne_nil w
  rw [h.ptr] at hr
  have hne : t' ≠ nil := by
    intro ht'
    have hp := hi.ptr
    rw [ht', ptr_nil] at hp
    exact h.ne_nil (ptr_eq_none.mp hp.symm)
  exact ⟨ok, m', t', hr, ⟨hi.holds, hi.distinct, hne, hi.ptr.trans h.ptr, hdeep n h.deep hw⟩,
    hadds, hall⟩

theorem Good.isSome (h : Good m root n t) : ¬ root.isNone = true := by
  rw [← h.ptr, isNone_ptr]
  exact h.ne_nil

/-- A cut keeps the root. -/
theorem Good.cut (h : Good m root n t) (hw : w ≠ []) (hm : Holds m' (t.cut w)) :
    Good m' root n (t.cut w) := by
  have hp := ptr_cut t hw
  have hne : t.cut w ≠ nil := by
    intro hn
    rw [hn, ptr_nil] at hp
    exact h.ne_nil (ptr_eq_none.mp hp.symm)
  exact ⟨hm, h.distinct.cut w, hne, hp.trans h.ptr, h.deep.cut w⟩

theorem insertAll_spec (h : Good m root n t) (hS : Stores t S) (hws : ∀ w ∈ ws, w.length < n)
    (hr : insertAll m root ws = some m') : ∃ t', Good m' root n t' ∧ Stores t' (S ++ ws) := by
  induction ws generalizing m t S with
  | nil =>
    rw [insertAll, Option.some.injEq] at hr
    subst hr
    rw [List.append_nil]
    exact ⟨t, h, hS⟩
  | cons w ws ih =>
    obtain ⟨ok, m₁, t₁, hr₁, h₁, hadds, _⟩ := h.insert (hws w List.mem_cons_self)
    rw [insertAll, hr₁, Option.bind_eq_bind, Option.bind_some] at hr
    cases ok with
    | false => exact absurd hr.symm (Option.some_ne_none m')
    | true =>
      have hstep : insertAll m₁ root ws = some m' := by
        simpa only [if_true, if_neg h.isSome] using hr
      obtain ⟨t', h', hS'⟩ := ih h₁ (hS.add (hadds rfl))
        (fun u hu => hws u (List.mem_cons_of_mem _ hu)) hstep
      rw [List.append_assoc, List.singleton_append] at hS'
      exact ⟨t', h', hS'⟩

theorem insertAll_allOk (h : Good m root n t) (hws : ∀ w ∈ ws, w.length < n)
    (ho : m.outcomes = Outcomes.allOk) : ∃ m', insertAll m root ws = some m' := by
  induction ws generalizing m t with
  | nil => exact ⟨m, rfl⟩
  | cons w ws ih =>
    obtain ⟨ok, m₁, t₁, hr₁, h₁, _, hall⟩ := h.insert (hws w List.mem_cons_self)
    obtain ⟨rfl, ho₁⟩ := hall ho
    obtain ⟨m', hr⟩ := ih h₁ (fun u hu => hws u (List.mem_cons_of_mem _ hu)) ho₁
    refine ⟨m', ?_⟩
    rw [insertAll, hr₁, Option.bind_eq_bind, Option.bind_some]
    simp only [if_true, if_neg h.isSome]
    exact hr

/-- A new root. -/
theorem trieNodeCreate_good (m₀ : Heap) (hn : 0 < n) (hok : m₀.outcomes.first = true) :
    ∃ m, trieNodeCreate m₀ = (some m₀.next, m) ∧ Good m (some m₀.next) n (fresh m₀.next) ∧
      m.outcomes = m₀.outcomes.rest := by
  obtain ⟨m, hr, hcell, _, _, hout⟩ := malloc_ok hok ⟨fun _ => none, false⟩
  obtain ⟨n, rfl⟩ := Nat.exists_eq_succ_of_ne_zero (Nat.ne_of_gt hn)
  exact ⟨m, hr, ⟨⟨hcell, fun _ => trivial⟩, fresh_distinct _, Tree.noConfusion, rfl,
    fun _ => trivial⟩, hout⟩

/-- **A trie that has been built stores its words.** -/
theorem trieBuild_spec (hws : ∀ w ∈ ws, w.length < n) (hn : 0 < n)
    (hr : trieBuild m₀ ws = some (root, m)) : ∃ t, Good m root n t ∧ Stores t ws := by
  cases hout : m₀.outcomes.first with
  | false =>
    rw [trieBuild, trieNodeCreate, malloc_fail hout] at hr
    exact absurd hr.symm (Option.some_ne_none _)
  | true =>
    obtain ⟨m₁, hr₁, h₁, _⟩ := trieNodeCreate_good m₀ hn hout
    rw [trieBuild, hr₁] at hr
    simp only [Option.isNone_some, Bool.false_eq_true, if_false, Option.bind_eq_bind] at hr
    obtain ⟨m', hall, he⟩ := Option.bind_eq_some_iff.mp hr
    rw [Option.pure_def, Option.some.injEq, Prod.mk.injEq] at he
    obtain ⟨rfl, rfl⟩ := he
    obtain ⟨t, ht, hS⟩ := insertAll_spec h₁ (stores_fresh _) hws hall
    exact ⟨t, ht, hS⟩

theorem trieBuild_allOk (hws : ∀ w ∈ ws, w.length < n) (hn : 0 < n)
    (ho : m₀.outcomes = Outcomes.allOk) : ∃ root m, trieBuild m₀ ws = some (root, m) := by
  obtain ⟨m₁, hr₁, h₁, hout⟩ := trieNodeCreate_good m₀ hn (by rw [ho]; rfl)
  obtain ⟨m', hr⟩ := insertAll_allOk h₁ hws (by rw [hout, ho]; rfl)
  refine ⟨some m₀.next, m', ?_⟩
  rw [trieBuild, hr₁]
  simp only [Option.isNone_some, Bool.false_eq_true, if_false, Option.bind_eq_bind, hr,
    Option.bind_some, Option.pure_def]

/-- **Searching a trie that stores words.** -/
theorem Good.search (h : Good m root n t) (hS : Stores t S) (v : Word) :
    trieSearch m root (some (str v)) = some (decide (v ∈ S)) := by
  rw [← h.ptr, trieSearch_eq h.holds h.ne_nil, hS.leafAt_eq]

end DataStructures.Trie
