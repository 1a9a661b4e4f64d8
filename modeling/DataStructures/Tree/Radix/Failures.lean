import DataStructures.Lib.Refinement
import DataStructures.Tree.Radix.Run

/-!
# Insertions that fail

A call of `radix_tree_insert` may fail after it has split a node.  The tree is then not the one from
before the call, but it stores the same.  Only which negative value a refused call returns may change.

`radixTree_refines_calls`: with memory at hand, every sequence of calls on a good tree is answered as by
the map that the tree stores.  So a tree is not to be told from another one that stores the same
(`indistinguishable_of_find`), and `failedInsert_unobservable`: **an insertion that fails changes nothing
that any later calls could show.**
-/

namespace DataStructures.Radix

open Lib Outcomes RadixTreeNode Refinement

variable {V : Type}

/-! ### Calls -/

/-- The calls of a user. -/
inductive Call (V : Type)
  | insert (key : List Byte) (data : V)
  | remove (key : List Byte)
  | lookup (key : List Byte)

/-- What a user learns: whether 0 was returned, or the data that were found. -/
inductive Answer (V : Type)
  | done (ok : Bool)
  | found (data : Option V)

/-- A call on the tree, with allocations that succeed. -/
def respond (t : RadixTree V) : Call V → Option (Answer V × RadixTree V)
  | .insert key data => do
      let (ret, t, _) ← radixTreeInsert allOk t (some key) (some data)
      return (.done (decide (ret = 0)), t)
  | .remove key => do
      let (ret, t, _) ← radixTreeRemove allOk t (some key)
      return (.done (decide (ret = 0)), t)
  | .lookup key => do
      let data ← radixTreeLookup t (some key)
      return (.found data, t)

/-- The same on a map; the empty key is refused. -/
def answer (m : List Byte → Option V) : Call V → Answer V × (List Byte → Option V)
  | .insert key data =>
      if key = [] ∨ (m key).isSome then (.done false, m)
      else (.done true, Function.update m key (some data))
  | .remove key =>
      if key = [] ∨ (m key).isNone then (.done false, m)
      else (.done true, Function.update m key none)
  | .lookup key => (.found (if key = [] then none else m key), m)

/-- A tree stands for what it stores. -/
def Stands (t : RadixTree V) (m : List Byte → Option V) : Prop := IsRoot t ∧ find t = m

/-- Nothing that is done with the trees, with allocations that succeed, tells them apart. -/
def Indistinguishable (t t' : RadixTree V) : Prop :=
  ∀ l : List (Call V), ∃ answers u u', Refinement.calls respond t l = some (answers, u) ∧
    Refinement.calls respond t' l = some (answers, u')

variable {t t' : RadixTree V} {key : List Byte}

/-- **The empty key is refused.** -/
theorem IsRoot.empty_key (h : IsRoot t) :
    (∀ o data, radixTreeInsert o t (some []) (some data) = some (-1, t, o)) ∧
      (∀ o, radixTreeRemove o t (some []) = some (-1, t, o)) ∧ radixTreeLookup t (some []) = some none := by
  cases t with
  | null => exact absurd rfl h.ne_null
  | node p d ch => exact ⟨fun _ _ => rfl, fun _ => rfl, rfl⟩

theorem respond_insert (h : IsRoot t) (key : List Byte) (data : V) : ∃ t',
    respond t (.insert key data) = some ((answer (find t) (.insert key data)).1, t') ∧
      Stands t' (answer (find t) (.insert key data)).2 := by
  rw [respond, answer]
  by_cases hk : key = []
  · subst hk
    rw [h.empty_key.1, if_pos (Or.inl rfl)]
    exact ⟨t, rfl, h, rfl⟩
  · rcases insert_spec h hk data with ⟨t', hr, hg⟩ | ⟨ret, hr, hneg, hsome⟩
    · have hnone : ¬ (key = [] ∨ (find t key).isSome = true) := by
        rw [hg.absent]
        exact fun hor => hor.elim hk Bool.false_ne_true
      rw [hr, if_neg hnone]
      exact ⟨t', rfl, hg.isRoot h, hg.find⟩
    · rw [hr, if_pos (Or.inr hsome)]
      refine ⟨t, ?_, h, rfl⟩
      simp [Int.ne_of_lt hneg]

theorem respond_remove (h : IsRoot t) (key : List Byte) : ∃ t',
    respond t (.remove key) = some ((answer (find t) (.remove key)).1, t') ∧
      Stands t' (answer (find t) (.remove key)).2 := by
  rw [respond, answer]
  by_cases hk : key = []
  · subst hk
    rw [h.empty_key.2.1, if_pos (Or.inl rfl)]
    exact ⟨t, rfl, h, rfl⟩
  · rcases remove_spec h hk with ⟨t', hr, hs⟩ | ⟨ret, hr, hneg, hnone⟩
    · have hsome : ¬ (key = [] ∨ (find t key).isNone = true) := by
        rw [Option.isNone_iff_eq_none, ← Option.not_isSome_iff_eq_none, hs.present]
        exact fun hor => hor.elim hk (fun hn => hn rfl)
      rw [hr, if_neg hsome]
      exact ⟨t', rfl, hs.isRoot h, (hs.erases h.good).1 h.pfx⟩
    · rw [hr, if_pos (Or.inr (Option.isNone_iff_eq_none.mpr hnone))]
      refine ⟨t, ?_, h, rfl⟩
      simp [Int.ne_of_lt hneg]

theorem respond_lookup (h : IsRoot t) (key : List Byte) : ∃ t',
    respond t (.lookup key) = some ((answer (find t) (.lookup key)).1, t') ∧
      Stands t' (answer (find t) (.lookup key)).2 := by
  refine ⟨t, ?_, h, rfl⟩
  rw [respond, answer]
  by_cases hk : key = []
  · subst hk
    rw [h.empty_key.2.2]
    rfl
  · rw [lookup_spec h hk, if_neg hk]
    rfl

/-- **The tree refines the map it stores**, call by call. -/
theorem radixTree_refines_calls :
    Refines (respond (V := V)) answer (fun _ _ => True) Stands where
  step := by
    rintro t m a ⟨h, rfl⟩ -
    cases a with
    | insert key data => exact respond_insert h key data
    | remove key => exact respond_remove h key
    | lookup key => exact respond_lookup h key

/-- **Trees that store the same are not to be told apart.** -/
theorem indistinguishable_of_find (h : IsRoot t) (h' : IsRoot t') (hf : find t' = find t) :
    Indistinguishable t t' := by
  intro l
  have hlegal : AllLegal answer (fun _ _ => True) (find t) l := allLegal_of_forall l (fun _ _ => trivial)
  obtain ⟨u, hu, -⟩ := radixTree_refines_calls.calls ⟨h, rfl⟩ hlegal
  obtain ⟨u', hu', -⟩ := radixTree_refines_calls.calls ⟨h', hf⟩ hlegal
  exact ⟨_, u, u', hu, hu'⟩

/-! ### A failed insertion -/

theorem Splits.isRoot (h : Splits t t') (hr : IsRoot t) : IsRoot t' :=
  ⟨h.ne_null hr.ne_null, h.pfx_eq.trans hr.pfx, h.good hr.good⟩

/-- **An insertion that fails keeps what is stored**: it has been refused, or has split a node at most. -/
theorem InsertResult.unchanged {data : V} {o o' : Outcomes} {ret : Int}
    (h : InsertResult data o t key ret t' o') (hr : IsRoot t) (hneg : ret < 0) :
    IsRoot t' ∧ find t' = find t := by
  cases h with
  | done _ _ => exact absurd hneg (Int.lt_irrefl 0)
  | refused _ _ => exact ⟨hr, rfl⟩
  | failed _ _ hsp => exact ⟨hsp.isRoot hr, hsp.find⟩

/-- **A failed insertion changes nothing observable.**  After a run whose allocations succeeded, a call of
`radix_tree_insert` returns, whatever its allocations answer.  If it returns a negative value, every lookup
is as before the call, and so are the answers to all sequences of later calls. -/
theorem failedInsert_unobservable (t : RadixTree V) (m : List Byte → Option V)
    (h : Run (fun _ _ => True) t m) (key : List Byte) (hk : key ≠ []) (data : V) (o : Outcomes) :
    ∃ ret t' o', radixTreeInsert o t (some key) (some data) = some (ret, t', o') ∧
      (ret < 0 → (∀ k, radixTreeLookup t' (some k) = radixTreeLookup t (some k)) ∧
        Indistinguishable t t') := by
  obtain ⟨hroot, -⟩ := h.inv
  obtain ⟨ret, t', o', hr, hres⟩ := insert_outcomes hroot hk data o
  refine ⟨ret, t', o', hr, fun hneg => ?_⟩
  obtain ⟨hroot', hfind⟩ := hres.unchanged hroot hneg
  refine ⟨fun k => ?_, indistinguishable_of_find hroot hroot' hfind⟩
  by_cases hnil : k = []
  · rw [hnil, hroot.empty_key.2.2, hroot'.empty_key.2.2]
  · rw [lookup_spec hroot hnil, lookup_spec hroot' hnil, hfind]

/-- The tree that holds `1` for the key `aa`. -/
def longTree : RadixTree Nat :=
  node none none
    (Function.update noChildren charA.val (node (some [charA, charA]) (some 1) noChildren))

/-- The key `a`, whose datum cannot be copied once the node of `aa` is split. -/
theorem failedInsert_unobservable_longTree : ∃ t' o',
    radixTreeInsert (fun n => decide (n < 2)) longTree (some [charA]) (some 2) = some (-3, t', o') ∧
      (∀ k, radixTreeLookup t' (some k) = radixTreeLookup longTree (some k)) ∧
      Indistinguishable longTree t' := by
  have hnull : (noChildren : UInt8 → RadixTreeNode Nat) charA.val = null := rfl
  obtain ⟨o, ⟨hr, -⟩ | ⟨-, ho⟩⟩ := insert_create (p := none) (d := none) allOk [charA] 1 hnull
  · have hrun : Run (fun _ _ => True) longTree _ := .insert (.init rfl) (List.cons_ne_nil _ _) hr
    obtain ⟨ret, t', o', hr', h⟩ := failedInsert_unobservable longTree _ hrun [charA]
      (List.cons_ne_nil _ _) 2 (fun n => decide (n < 2))
    have hret : ret = -3 := by
      have hcall : radixTreeInsertHelper (fun n => decide (n < 2)) longTree [charA] 2 =
        some (ret, t', o') := hr'
      rw [longTree, radixTreeInsertHelper] at hcall
      exact (congrArg Prod.fst (Option.some.inj hcall)).symm
    subst hret
    exact ⟨t', o', hr', h (by decide)⟩
  · exact absurd rfl ho

end DataStructures.Radix
