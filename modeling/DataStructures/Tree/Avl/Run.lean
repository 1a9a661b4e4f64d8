import DataStructures.Tree.Avl.Entry

/-!
# Runs of the AVL tree

`Run c ok entry l`: a run of insertions and deletions, in which every allocation
succeeds, has led from `avl_tree_create` to `entry`, and from the empty sequence to
the sorted sequence `l`.  `ok` says which deletions the run may contain.

`Run.inv`: the entry denotes an AVL tree with the elements `l`, unless the run has
deleted an only element.  Hence

* `avlTree_invariant`: **without such a deletion every entry is an AVL tree**;
* `avlTreeDelete_properly_iff`: **a deletion does what it should exactly when** the
  tree is empty, or holds the key and something else.
-/

namespace DataStructures.Avl

open Lib Memory Outcomes

variable {K : Type} {c : Comparison K} {k : K} {entry : AvlTreeEntry K} {t : Tree K} {l : List K}

/-- An entry a run has led to, and the elements it stands for. -/
inductive Run (c : Comparison K) (ok : List K → K → Prop) : AvlTreeEntry K → List K → Prop
  | create {entry : AvlTreeEntry K} : avlTreeCreate allOk = some entry → Run c ok entry []
  | insert {entry entry' : AvlTreeEntry K} {l : List K} {data : K} {ret : Int} : Run c ok entry l →
      avlTreeInsert c entry (some data) = some (ret, entry') → Run c ok entry' (insertSeq c data l)
  | delete {entry entry' : AvlTreeEntry K} {l : List K} {data : K} {ret : Int} : Run c ok entry l →
      ok l data → avlTreeDelete c entry (some data) = some (ret, entry') →
      Run c ok entry' (eraseSeq c data l)

/-! ### One call -/

theorem Tree.toList_eq_nil : t.toList = [] ↔ t = .nil := by
  cases t <;> simp [Tree.toList]

theorem Tree.toList_eq_singleton {x : K} (h : t.toList = [x]) : ∃ a i, t = .node a x .nil .nil i := by
  obtain _ | ⟨a, d, l, r, i⟩ := t
  · exact absurd h (List.cons_ne_nil _ _).symm
  · rw [Tree.toList, List.append_eq_singleton_iff] at h
    rcases h with ⟨hl, hr⟩ | ⟨_, hr⟩
    · rw [List.cons.injEq, Tree.toList_eq_nil] at hr
      rw [Tree.toList_eq_nil] at hl
      obtain ⟨rfl, rfl⟩ := hr
      exact ⟨a, i, by rw [hl]⟩
    · exact absurd hr (List.cons_ne_nil _ _)

/-- **One insertion.** -/
theorem Denotes.insert (h : Denotes c entry t) (ho : entry.mem.outcomes = allOk) (k : K) :
    ∃ entry', avlTreeInsert c entry (some k) = some (0, entry') ∧ entry'.mem.outcomes = allOk ∧
      ∃ t', Denotes c entry' t' ∧ t'.toList = insertSeq c k t.toList := by
  have hcr : Creates entry.mem := by
    rw [Creates, ho]
    exact ⟨rfl, rfl⟩
  obtain ⟨entry', hr, hd, ho'⟩ := h.insert_ok (k := k) (Or.inr hcr)
  exact ⟨entry', hr, ho' ho, _, hd, Tree.insert_toList _ h.avl.sorted⟩

/-- **One deletion**, that does not empty the tree. -/
theorem Denotes.delete (h : Denotes c entry t) (ho : entry.mem.outcomes = allOk) (hne : t.toList ≠ [])
    (hs : ¬ Sole c k t.toList) :
    ∃ entry', avlTreeDelete c entry (some k) = some (0, entry') ∧ entry'.mem.outcomes = allOk ∧
      ∃ t', Denotes c entry' t' ∧ t'.toList = eraseSeq c k t.toList := by
  have hlist := Tree.delete_toList k h.avl.sorted
  have hres : (t.delete c k entry.mem.outcomes).1 ≠ .nil := by
    rw [ho]
    intro hnil
    rw [← Tree.toList_eq_nil, hlist, eraseSeq_eq_nil] at hnil
    exact hnil.elim hne hs
  obtain ⟨m', hr, hd⟩ := h.delete_some hres
  rw [ho] at hr hd
  refine ⟨_, hr, ?_, _, ⟨rfl, hd.holds, Tree.delete_nodup k _ h.nodup, h.avl.delete k⟩, hlist⟩
  rw [hd.outcomes]
  exact Tree.delete_allOk t k

/-- **One deletion**, of the only element. -/
theorem Denotes.delete_sole (h : Denotes c entry t) (hs : Sole c k t.toList) :
    ∃ entry', avlTreeDelete c entry (some k) = some (-1, entry') ∧ Dangling entry' ∧
      entry'.mem.outcomes = entry.mem.outcomes := by
  obtain ⟨x, hx, he⟩ := hs
  obtain ⟨a, i, rfl⟩ := Tree.toList_eq_singleton hx
  exact h.delete_leaf he

/-! ### Whole runs -/

/-- **What holds after every run.**  The root dangles only after the deletion of an
only element. -/
theorem Run.inv {ok : List K → K → Prop} (h : Run c ok entry l) : entry.mem.outcomes = allOk ∧
    ((∃ t, Denotes c entry t ∧ t.toList = l) ∨
      Dangling entry ∧ l = [] ∧ ∃ l' data, ok l' data ∧ Sole c data l') := by
  induction h with
  | create hr =>
    rw [avlTreeCreate, first_allOk, if_neg (by decide), rest_allOk, Option.some.injEq] at hr
    subst hr
    exact ⟨rfl, Or.inl ⟨.nil, ⟨rfl, trivial, List.nodup_nil, isAvl_nil⟩, rfl⟩⟩
  | @insert entry entry' l data ret _ hr ih =>
    obtain ⟨ho, ⟨t, hd, rfl⟩ | ⟨hdangling, _⟩⟩ := ih
    · obtain ⟨entry₁, hr₁, ho₁, t', hd', hl⟩ := hd.insert ho data
      rw [hr₁, Option.some.injEq, Prod.mk.injEq] at hr
      obtain ⟨_, rfl⟩ := hr
      exact ⟨ho₁, Or.inl ⟨t', hd', hl⟩⟩
    · rw [hdangling.insert] at hr
      exact absurd hr.symm (Option.some_ne_none _)
  | @delete entry entry' l data ret _ hok hr ih =>
    obtain ⟨ho, ⟨t, hd, rfl⟩ | ⟨hdangling, _⟩⟩ := ih
    · by_cases hnil : t.toList = []
      · rw [Tree.toList_eq_nil.mp hnil] at hd
        rw [hd.delete_nil, Option.some.injEq, Prod.mk.injEq] at hr
        obtain ⟨_, rfl⟩ := hr
        exact ⟨ho, Or.inl ⟨.nil, hd, by rw [hnil]; rfl⟩⟩
      · by_cases hs : Sole c data t.toList
        · obtain ⟨entry₁, hr₁, hdangling, ho₁⟩ := hd.delete_sole hs
          rw [hr₁, Option.some.injEq, Prod.mk.injEq] at hr
          obtain ⟨_, rfl⟩ := hr
          exact ⟨ho₁.trans ho, Or.inr ⟨hdangling, eraseSeq_eq_nil.mpr (Or.inr hs), _, _, hok, hs⟩⟩
        · obtain ⟨entry₁, hr₁, ho₁, t', hd', hl⟩ := hd.delete ho hnil hs
          rw [hr₁, Option.some.injEq, Prod.mk.injEq] at hr
          obtain ⟨_, rfl⟩ := hr
          exact ⟨ho₁, Or.inl ⟨t', hd', hl⟩⟩
    · rw [hdangling.delete] at hr
      exact absurd hr.symm (Option.some_ne_none _)

/-- The integers, compared by subtraction. -/
def intComparison : Comparison Int where
  cmp a b := a - b
  swap _ _ := by omega
  trans _ _ _ _ _ := by omega

/-- The tree that holds `1`. -/
def exampleEntry : AvlTreeEntry Int where
  mem :=
    { cells := Function.update (Function.update (fun _ => none) 0 (some ⟨none, none, none, 0⟩)) 0
        (some ⟨some 1, none, none, 1⟩)
      next := 1
      outcomes := allOk
      fresh := fun a ha => by
        rw [Function.update_of_ne (by omega), Function.update_of_ne (by omega)] }
  root := some 0

theorem exampleEntry_run (ok : List Int → Int → Prop) :
    Run intComparison ok exampleEntry [1] := by
  have hr : avlTreeInsert intComparison ⟨Memory.empty allOk, none⟩ (some 1) =
      some (0, exampleEntry) := rfl
  exact .insert (.create rfl) hr

/-- `avl_tree_insert` for each key of a list. -/
def insertAll (c : Comparison K) : List K → AvlTreeEntry K → Option (AvlTreeEntry K)
  | [], entry => some entry
  | k :: ks, entry => (avlTreeInsert c entry (some k)).bind (fun r => insertAll c ks r.2)

theorem Run.insertAll {ok : List K → K → Prop} : ∀ (ks : List K) {entry entry' : AvlTreeEntry K} {l : List K},
    Run c ok entry l → Avl.insertAll c ks entry = some entry' →
    Run c ok entry' (ks.foldl (fun l k => insertSeq c k l) l) := by
  intro ks
  induction ks with
  | nil =>
    intro entry entry' l h hr
    rw [← Option.some.inj hr]
    exact h
  | cons k ks ih =>
    intro entry entry' l h hr
    rw [Avl.insertAll, Option.bind_eq_some_iff] at hr
    obtain ⟨r, hk, hr⟩ := hr
    exact ih (h.insert hk) hr

theorem sixEntry_isSome :
    (insertAll intComparison [4, 2, 6, 1, 3, 7] ⟨Memory.empty allOk, none⟩).isSome := rfl

/-- The tree after inserting `4, 2, 6, 1, 3, 7`. -/
def sixEntry : AvlTreeEntry Int :=
  (insertAll intComparison [4, 2, 6, 1, 3, 7] ⟨Memory.empty allOk, none⟩).get sixEntry_isSome

theorem fiveEntry_isSome : (avlTreeDelete intComparison sixEntry (some 2)).isSome := rfl

/-- The tree after deleting `2` as well, which has two children. -/
def fiveEntry : AvlTreeEntry Int := ((avlTreeDelete intComparison sixEntry (some 2)).get fiveEntry_isSome).2

theorem fiveEntry_run (ok : List Int → Int → Prop) (hok : ok [1, 2, 3, 4, 6, 7] 2) :
    Run intComparison ok fiveEntry [1, 3, 4, 6, 7] := by
  have hsix : Run intComparison ok sixEntry [1, 2, 3, 4, 6, 7] :=
    Run.insertAll _ (.create rfl) (Option.some_get sixEntry_isSome).symm
  have hr : avlTreeDelete intComparison sixEntry (some 2) =
      some (((avlTreeDelete intComparison sixEntry (some 2)).get fiveEntry_isSome).1, fiveEntry) :=
    (Option.some_get fiveEntry_isSome).symm
  exact .delete hsix hok hr

theorem not_sole_six : ¬ Sole intComparison 2 [1, 2, 3, 4, 6, 7] := by
  rintro ⟨x, hx, -⟩
  cases hx

/-- **The AVL invariant.**  After a run that never deletes an only element, the root
is a tree in memory, without shared nodes, that holds the elements of the run in
strictly increasing order; every stored height is the height of the subtree; the
heights of two siblings differ by at most one.  And the next call returns. -/
theorem avlTree_invariant (c : Comparison K) (entry : AvlTreeEntry K) (l : List K)
    (h : Run c (fun l data => ¬ Sole c data l) entry l) :
    (∃ t : Tree K, entry.root = t.ptr ∧ Holds entry.mem t ∧ t.addrs.Nodup ∧ t.toList = l ∧
      Sorted c t.toList ∧ t.Exact ∧ t.Balanced) ∧
    (∀ data, ∃ ret entry', avlTreeInsert c entry (some data) = some (ret, entry')) ∧
    ∀ data, ∃ ret entry', avlTreeDelete c entry (some data) = some (ret, entry') := by
  obtain ⟨ho, ⟨t, hd, hl⟩ | ⟨_, _, _, _, hok, hs⟩⟩ := h.inv
  · refine ⟨⟨t, hd.root, hd.holds, hd.nodup, hl, hd.avl.sorted, hd.avl.exact, hd.avl.balanced⟩,
      fun data => ?_, fun data => ?_⟩
    · obtain ⟨entry', hr, _⟩ := hd.insert ho data
      exact ⟨0, entry', hr⟩
    · obtain ⟨ret, entry', hr⟩ := hd.delete_returns data
      exact ⟨ret, entry', hr⟩
  · exact absurd hs hok

theorem avlTree_invariant_fiveEntry :
    (∃ t : Tree Int, fiveEntry.root = t.ptr ∧ Holds fiveEntry.mem t ∧ t.addrs.Nodup ∧
      t.toList = [1, 3, 4, 6, 7] ∧ Sorted intComparison t.toList ∧ t.Exact ∧ t.Balanced) ∧
    (∀ data, ∃ ret entry', avlTreeInsert intComparison fiveEntry (some data) =
      some (ret, entry')) ∧
    ∀ data, ∃ ret entry', avlTreeDelete intComparison fiveEntry (some data) =
      some (ret, entry') :=
  avlTree_invariant intComparison fiveEntry [1, 3, 4, 6, 7] (fiveEntry_run _ not_sole_six)

/-! ### Deletions -/

/-- The node at `a` can be reached from a pointer. -/
inductive Reachable (m : Heap K) : Ptr → Nat → Prop
  | here {a : Nat} : Reachable m (some a) a
  | left {a b : Nat} {n : AvlTreeNode K} : m.cells a = some n → Reachable m n.left b →
      Reachable m (some a) b
  | right {a b : Nat} {n : AvlTreeNode K} : m.cells a = some n → Reachable m n.right b →
      Reachable m (some a) b

/-- From the root of a tree in memory only its nodes are reached, and they are
there. -/
theorem Holds.reachable {m : Heap K} : ∀ {t : Tree K} {b : Nat}, Holds m t → Reachable m t.ptr b →
    (m.cells b).isSome := by
  intro t
  induction t with
  | nil => intro b _ hr; exact nomatch hr
  | node a d l r h ihl ihr =>
    intro b ht hr
    cases hr with
    | here => rw [ht.1]; rfl
    | left hc hr =>
      rw [ht.1, Option.some.injEq] at hc
      subst hc
      exact ihl ht.2.1 hr
    | right hc hr =>
      rw [ht.1, Option.some.injEq] at hc
      subst hc
      exact ihr ht.2.2 hr

/-- **The entry denotes the elements `l`.**  The root is NULL if there are none, no
node that can be reached has been freed, and every function is defined. -/
structure Intact (c : Comparison K) (entry : AvlTreeEntry K) (l : List K) : Prop where
  denotes : ∃ t : Tree K, entry.root = t.ptr ∧ Holds entry.mem t ∧ t.addrs.Nodup ∧ t.toList = l
  null : l = [] → entry.root = none
  allocated : ∀ a, Reachable entry.mem entry.root a → (entry.mem.cells a).isSome
  lookup : ∀ k, (avlTreeLookup c entry (some k)).isSome
  insert : ∀ k, (avlTreeInsert c entry (some k)).isSome
  delete : ∀ k, (avlTreeDelete c entry (some k)).isSome
  destroy : (avlTreeDestroy entry).isSome

theorem Denotes.intact (h : Denotes c entry t) (ho : entry.mem.outcomes = allOk) :
    Intact c entry t.toList where
  denotes := ⟨t, h.root, h.holds, h.nodup, rfl⟩
  null := fun hl => by rw [h.root, Tree.toList_eq_nil.mp hl]; rfl
  allocated := fun a hr => h.holds.reachable (h.root ▸ hr)
  lookup := fun k => by rw [h.lookup]; rfl
  insert := fun k => by
    obtain ⟨entry', hr, _⟩ := h.insert ho k
    rw [hr]
    rfl
  delete := fun k => by
    obtain ⟨ret, entry', hr⟩ := h.delete_returns k
    rw [hr]
    rfl
  destroy := by
    obtain ⟨m', hr, _⟩ := h.destroy
    rw [hr]
    rfl

/-- **A deletion that does what it should**: it returns 0 exactly when the key was
there, and the entry then denotes the remaining elements. -/
def DeletesProperly (c : Comparison K) (entry : AvlTreeEntry K) (l : List K) (key : K) : Prop :=
  ∃ ret entry', avlTreeDelete c entry (some key) = some (ret, entry') ∧ (ret = 0 ↔ Occurs c key l) ∧
    Intact c entry' (eraseSeq c key l)

/-- **When a deletion does what it should.**  After any run, exactly if the tree is
empty, or the key is there and something else too. -/
theorem avlTreeDelete_properly_iff (c : Comparison K) (entry : AvlTreeEntry K) (l : List K)
    (h : Run c (fun _ _ => True) entry l) (key : K) :
    DeletesProperly c entry l key ↔ entry.root = none ∨ (Occurs c key l ∧ ¬ Sole c key l) := by
  obtain ⟨ho, ⟨t, hd, rfl⟩ | ⟨hdangling, rfl, _⟩⟩ := h.inv
  · by_cases hnil : t.toList = []
    · have htn := Tree.toList_eq_nil.mp hnil
      subst htn
      refine ⟨fun _ => Or.inl hd.root, fun _ => ⟨-1, entry, hd.delete_nil, ?_, hd.intact ho⟩⟩
      simp [Occurs, Tree.toList]
    · have hroot : entry.root ≠ none := by
        rw [hd.root]
        exact fun hp => hnil (Tree.toList_eq_nil.mpr (Tree.ptr_eq_none.mp hp))
      rw [or_iff_right hroot]
      by_cases hs : Sole c key t.toList
      · -- the result is NULL, taken for a failure
        obtain ⟨entry', hr, _⟩ := hd.delete_sole hs
        refine ⟨fun hp => ?_, fun hc => absurd hs hc.2⟩
        obtain ⟨ret, entry₁, hr₁, hret, _⟩ := hp
        rw [hr, Option.some.injEq, Prod.mk.injEq] at hr₁
        have := hret.mpr hs.occurs
        omega
      · obtain ⟨entry', hr, ho', t', hd', hl⟩ := hd.delete ho hnil hs
        refine ⟨?_, ?_⟩
        · intro hp
          obtain ⟨ret, entry₁, hr₁, hret, _⟩ := hp
          rw [hr, Option.some.injEq, Prod.mk.injEq] at hr₁
          exact ⟨hret.mp hr₁.1.symm, hs⟩
        · intro hc
          exact ⟨0, entry', hr, ⟨fun _ => hc.1, fun _ => rfl⟩, hl ▸ hd'.intact ho'⟩
  · -- nothing is defined
    constructor
    · rintro ⟨ret, entry', hr, _⟩
      rw [hdangling.delete] at hr
      exact absurd hr.symm (Option.some_ne_none _)
    · obtain ⟨a, hroot, _⟩ := hdangling
      rintro (hn | ⟨⟨x, hx, _⟩, _⟩)
      · rw [hn] at hroot
        exact absurd hroot.symm (Option.some_ne_none _)
      · exact absurd hx List.not_mem_nil

theorem avlTreeDelete_properly_iff_fiveEntry :
    DeletesProperly intComparison fiveEntry [1, 3, 4, 6, 7] 4 ↔
      fiveEntry.root = none ∨
        (Occurs intComparison 4 [1, 3, 4, 6, 7] ∧ ¬ Sole intComparison 4 [1, 3, 4, 6, 7]) :=
  avlTreeDelete_properly_iff intComparison fiveEntry [1, 3, 4, 6, 7] (fiveEntry_run _ trivial) 4

/-- **The deletion of the only element is reported as a failure, and leaves the root
dangling; that of an absent key as a success.** -/
theorem avlTreeDelete_not_properly :
    Run intComparison (fun _ _ => True) exampleEntry [1] ∧
      ¬ DeletesProperly intComparison exampleEntry [1] 1 ∧
      ¬ DeletesProperly intComparison exampleEntry [1] 2 ∧
      ∃ ret entry', avlTreeDelete intComparison exampleEntry (some 1) = some (ret, entry') ∧
        entry'.root = some 0 ∧ entry'.mem.cells 0 = none := by
  have hr₁ : ∃ entry', avlTreeDelete intComparison exampleEntry (some 1) = some (-1, entry') ∧
      entry'.root = some 0 ∧ entry'.mem.cells 0 = none := ⟨_, rfl, rfl, rfl⟩
  have hr₂ : ∃ entry', avlTreeDelete intComparison exampleEntry (some 2) = some (0, entry') :=
    ⟨_, rfl⟩
  refine ⟨exampleEntry_run _, ?_, ?_, ?_⟩
  · rintro ⟨ret, entry', hr, hret, _⟩
    obtain ⟨entry₁, hr₁, _⟩ := hr₁
    rw [hr₁, Option.some.injEq, Prod.mk.injEq] at hr
    have := hret.mpr ⟨1, List.mem_singleton_self 1, rfl⟩
    omega
  · rintro ⟨ret, entry', hr, hret, _⟩
    obtain ⟨entry₁, hr₂⟩ := hr₂
    rw [hr₂, Option.some.injEq, Prod.mk.injEq] at hr
    obtain ⟨x, hx, hcmp⟩ := hret.mp hr.1.symm
    rw [List.mem_singleton.mp hx] at hcmp
    exact absurd hcmp (by decide)
  · obtain ⟨entry₁, hr₁, h⟩ := hr₁
    exact ⟨-1, entry₁, hr₁, h⟩

end DataStructures.Avl
