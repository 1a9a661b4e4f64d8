import DataStructures.Tree.Radix.Insert
import DataStructures.Tree.Radix.Remove

/-!
# Runs of the radix tree

`Run ok t m`: a run of insertions and removals, in which every allocation
succeeds, has led from `radix_tree_init` to the tree `t`, and from the empty map
to the map `m`.  `ok` says which removals the run may contain.

`Run.inv`: the tree is good, and stores what the map does.  Hence
`radixTree_refines`: **the tree behaves as a finite map**, and no assertion fails.
-/

namespace DataStructures.Radix

open Lib Outcomes RadixTreeNode

variable {V : Type}

/-- A tree a run has led to, and the map it stands for. -/
inductive Run (ok : RadixTree V → List Byte → Prop) : RadixTree V → (List Byte → Option V) → Prop
  | init {t : RadixTree V} {o : Outcomes} : radixTreeInit allOk = (some t, o) →
      Run ok t (fun _ => none)
  | insert {t t' : RadixTree V} {m : List Byte → Option V} {key : List Byte} {data : V} {ret : Int}
      {o : Outcomes} : Run ok t m → key ≠ [] →
      radixTreeInsert allOk t (some key) (some data) = some (ret, t', o) →
      Run ok t' (if (m key).isSome then m else Function.update m key (some data))
  | remove {t t' : RadixTree V} {m : List Byte → Option V} {key : List Byte} {ret : Int}
      {o : Outcomes} : Run ok t m → key ≠ [] → ok t key →
      radixTreeRemove allOk t (some key) = some (ret, t', o) →
      Run ok t' (Function.update m key none)

/-- A root: it is there and has no prefix. -/
structure IsRoot (t : RadixTree V) : Prop where
  ne_null : t ≠ null
  pfx : t.pfx = none
  good : Good t

theorem isRoot_init : IsRoot (node none none noChildren : RadixTree V) :=
  ⟨nofun, rfl, good_noChildren _ _⟩

theorem radixTreeInit_allOk :
    radixTreeInit (V := V) allOk = (some (node none none noChildren), allOk) := rfl

/-! ### Lists of calls -/

/-- Insertions, and removals where there is no data, one after the other. -/
def calls : List (List Byte × Option V) → RadixTree V → Option (RadixTree V)
  | [], t => some t
  | (key, some data) :: l, t =>
      match radixTreeInsert allOk t (some key) (some data) with
      | none => none
      | some (_, t, _) => calls l t
  | (key, none) :: l, t =>
      match radixTreeRemove allOk t (some key) with
      | none => none
      | some (_, t, _) => calls l t

/-- What they do to the map. -/
def record : List (List Byte × Option V) → (List Byte → Option V) → List Byte → Option V
  | [], m => m
  | (key, some data) :: l, m =>
      record l (if (m key).isSome then m else Function.update m key (some data))
  | (key, none) :: l, m => record l (Function.update m key none)

theorem Run.calls {ok : RadixTree V → List Byte → Prop} : ∀ (l : List (List Byte × Option V))
    {t t' : RadixTree V} {m : List Byte → Option V}, Run ok t m → (∀ x ∈ l, x.1 ≠ []) →
    (∀ x ∈ l, x.2 = none → ∀ t, ok t x.1) → Radix.calls l t = some t' → Run ok t' (record l m) := by
  intro l
  induction l with
  | nil =>
    intro t t' m h _ _ ht
    rw [← Option.some.inj ht]
    exact h
  | cons x l ih =>
    intro t t' m h hk hok ht
    have hk' := fun y hy => hk y (List.mem_cons_of_mem _ hy)
    have hok' := fun y hy => hok y (List.mem_cons_of_mem _ hy)
    have hx := hk x (List.mem_cons_self ..)
    have hxok := hok x (List.mem_cons_self ..)
    obtain ⟨key, _ | data⟩ := x
    · rw [Radix.calls] at ht
      cases hr : radixTreeRemove allOk t (some key) with
      | none => rw [hr] at ht; exact absurd ht (by simp)
      | some r =>
        rw [hr] at ht
        exact ih (h.remove hx (hxok rfl t) hr) hk' hok' ht
    · rw [Radix.calls] at ht
      cases hr : radixTreeInsert allOk t (some key) (some data) with
      | none => rw [hr] at ht; exact absurd ht (by simp)
      | some r =>
        rw [hr] at ht
        exact ih (h.insert hx hr) hk' hok' ht

/-- The character `a`. -/
def charA : Byte := ⟨97, by decide⟩

/-- The character `b`. -/
def charB : Byte := ⟨98, by decide⟩

/-- Insert `aa`, `aba` and `abb`. -/
def forkCalls : List (List Byte × Option Nat) :=
  [([charA, charA], some 1), ([charA, charB, charA], some 2), ([charA, charB, charB], some 3)]

/-- The tree after it: below the node of `a` are a leaf and a node without data. -/
def forkTree : RadixTree Nat :=
  (calls forkCalls (node none none noChildren)).get (by decide +kernel)

theorem forkTree_run (ok : RadixTree Nat → List Byte → Prop) :
    Run ok forkTree (record forkCalls (fun _ => none)) := by
  have hins : ∀ x ∈ forkCalls, x.2 ≠ none := by decide
  exact Run.calls forkCalls (.init rfl) (by decide) (fun x hx hn => absurd hn (hins x hx))
    (Option.some_get _).symm

/-! ### One call -/

/-- **One insertion**, whatever the allocations answer. -/
theorem insert_outcomes {t : RadixTree V} (h : IsRoot t) {key : List Byte} (hk : key ≠ []) (data : V)
    (o : Outcomes) : ∃ ret t' o', radixTreeInsert o t (some key) (some data) = some (ret, t', o') ∧
      InsertResult data o t key ret t' o' := by
  have hc := insert_result data key.length key t o le_rfl hk h.good h.ne_null
  obtain ⟨hne, _, _⟩ := h
  cases t with
  | null => exact absurd rfl hne
  | node p d ch =>
    cases key with
    | nil => exact absurd rfl hk
    | cons c r => exact hc

/-- **One insertion**, carried out or refused, when every allocation succeeds. -/
theorem insert_spec {t : RadixTree V} (h : IsRoot t) {key : List Byte} (hk : key ≠ []) (data : V) :
    (∃ t', radixTreeInsert allOk t (some key) (some data) = some (0, t', allOk) ∧
      Grows data t key t') ∨
      ∃ ret, radixTreeInsert allOk t (some key) (some data) = some (ret, t, allOk) ∧ ret < 0 ∧
        (find t key).isSome := by
  obtain ⟨ret, t', o', hr, hres⟩ := insert_outcomes h hk data allOk
  cases hres with
  | done hgr ho => exact Or.inl ⟨t', ho rfl ▸ hr, hgr⟩
  | refused hneg hsome => exact Or.inr ⟨ret, hr, hneg, hsome⟩
  | failed _ ho _ => exact absurd rfl ho

/-- **One removal**, whatever `realloc` answers. -/
theorem remove_outcomes {t : RadixTree V} (h : IsRoot t) {key : List Byte} (hk : key ≠ [])
    (o : Outcomes) : ∃ ret t' o', radixTreeRemove o t (some key) = some (ret, t', o') ∧
      RemoveResult o t key ret t' o' := by
  have hc := remove_result t key o hk h.good h.ne_null
  obtain ⟨hne, _, _⟩ := h
  cases t with
  | null => exact absurd rfl hne
  | node p d ch =>
    cases key with
    | nil => exact absurd rfl hk
    | cons c r => exact hc

/-- **One removal**, carried out or refused, when `realloc` succeeds. -/
theorem remove_spec {t : RadixTree V} (h : IsRoot t) {key : List Byte} (hk : key ≠ []) :
    (∃ t', radixTreeRemove allOk t (some key) = some (0, t', allOk) ∧ Shrinks t key t') ∨
      ∃ ret, radixTreeRemove allOk t (some key) = some (ret, t, allOk) ∧ ret < 0 ∧
        find t key = none := by
  obtain ⟨ret, t', o', hr, hres⟩ := remove_outcomes h hk allOk
  cases hres with
  | done _ hs => exact Or.inl ⟨t', hr, hs⟩
  | refused hneg hnone => exact Or.inr ⟨ret, hr, hneg, hnone⟩
  | failed _ ho _ _ => exact absurd (succeed_allOk _) ho

/-- **One lookup.** -/
theorem lookup_spec {t : RadixTree V} (h : IsRoot t) {key : List Byte} (hk : key ≠ []) :
    radixTreeLookup t (some key) = some (find t key) := by
  have hc := lookup_eq key.length key t le_rfl hk h.good h.ne_null
  obtain ⟨hne, _, _⟩ := h
  cases t with
  | null => exact absurd rfl hne
  | node p d ch =>
    cases key with
    | nil => exact absurd rfl hk
    | cons c r => exact hc

theorem Grows.isRoot {v : V} {t t' : RadixTree V} {key : List Byte} (h : Grows v t key t')
    (hr : IsRoot t) : IsRoot t' :=
  ⟨h.ne_null, h.pfx_eq.trans hr.pfx, h.good hr.good⟩

theorem Shrinks.isRoot {t t' : RadixTree V} {key : List Byte} (h : Shrinks t key t')
    (hr : IsRoot t) : IsRoot t' :=
  ⟨h.ne_null, h.pfx_none hr.pfx, h.good hr.good⟩

/-! ### Whole runs -/

/-- **A property of good roots that insertions and the allowed removals keep**
holds of every tree of a run, and each tree stores what the map does. -/
theorem Run.induct {ok : RadixTree V → List Byte → Prop} {P : RadixTree V → Prop}
    (hinit : P (node none none noChildren))
    (hins : ∀ {t t' key data}, IsRoot t → P t → Grows data t key t' → P t')
    (hrem : ∀ {t t' key}, IsRoot t → P t → ok t key → Shrinks t key t' → P t')
    {t : RadixTree V} {m : List Byte → Option V} (h : Run ok t m) :
    IsRoot t ∧ find t = m ∧ P t := by
  induction h with
  | init ht =>
    rw [radixTreeInit_allOk, Prod.mk.injEq, Option.some.injEq] at ht
    rw [← ht.1]
    refine ⟨isRoot_init, funext (fun key => ?_), hinit⟩
    cases key <;> rfl
  | @insert t t' m key data ret o _ hk hr ih =>
    obtain ⟨hroot, rfl, hP⟩ := ih
    rcases insert_spec hroot hk data with ⟨t₁, hr₁, hg⟩ | ⟨ret₁, hr₁, _, hsome⟩
    · rw [hr₁, Option.some.injEq, Prod.mk.injEq, Prod.mk.injEq] at hr
      obtain ⟨_, rfl, _⟩ := hr
      rw [hg.absent]
      exact ⟨hg.isRoot hroot, hg.find, hins hroot hP hg⟩
    · rw [hr₁, Option.some.injEq, Prod.mk.injEq, Prod.mk.injEq] at hr
      obtain ⟨_, rfl, _⟩ := hr
      rw [if_pos hsome]
      exact ⟨hroot, rfl, hP⟩
  | @remove t t' m key ret o _ hk hok hr ih =>
    obtain ⟨hroot, rfl, hP⟩ := ih
    rcases remove_spec hroot hk with ⟨t₁, hr₁, hs⟩ | ⟨ret₁, hr₁, _, hnone⟩
    · rw [hr₁, Option.some.injEq, Prod.mk.injEq, Prod.mk.injEq] at hr
      obtain ⟨_, rfl, _⟩ := hr
      exact ⟨hs.isRoot hroot, (hs.erases hroot.good).1 hroot.pfx, hrem hroot hP hok hs⟩
    · rw [hr₁, Option.some.injEq, Prod.mk.injEq, Prod.mk.injEq] at hr
      obtain ⟨_, rfl, _⟩ := hr
      exact ⟨hroot, (Function.update_eq_self_iff.mpr hnone.symm).symm, hP⟩

theorem Run.inv {ok : RadixTree V → List Byte → Prop} {t : RadixTree V} {m : List Byte → Option V}
    (h : Run ok t m) : IsRoot t ∧ find t = m := by
  obtain ⟨h1, h2, _⟩ := h.induct (P := fun _ => True) trivial (fun _ _ _ => trivial)
    (fun _ _ _ _ => trivial)
  exact ⟨h1, h2⟩

/-- **The tree refines a finite map.**  After any run, a lookup returns what the
map holds; an insertion succeeds exactly when the key is absent, and sets that key
only; a removal succeeds exactly when the key is present, and clears that key only.
All three return, so no assertion has failed. -/
theorem radixTree_refines (t : RadixTree V) (m : List Byte → Option V)
    (h : Run (fun _ _ => True) t m) (key : List Byte) (hk : key ≠ []) :
    radixTreeLookup t (some key) = some (m key) ∧
    (∀ data, ∃ ret t', radixTreeInsert allOk t (some key) (some data) = some (ret, t', allOk) ∧
      (ret = 0 ↔ m key = none) ∧ ret ≤ 0 ∧
      ∀ k, k ≠ [] → radixTreeLookup t' (some k) =
        some (if k = key ∧ m key = none then some data else m k)) ∧
    ∃ ret t', radixTreeRemove allOk t (some key) = some (ret, t', allOk) ∧
      (ret = 0 ↔ (m key).isSome) ∧ ret ≤ 0 ∧
      ∀ k, k ≠ [] → radixTreeLookup t' (some k) = some (if k = key then none else m k) := by
  obtain ⟨hroot, rfl⟩ := h.inv
  refine ⟨lookup_spec hroot hk, fun data => ?_, ?_⟩
  · rcases insert_spec hroot hk data with ⟨t', hr, hg⟩ | ⟨ret, hr, hneg, hsome⟩
    · refine ⟨0, t', hr, by simp [hg.absent], Int.le_refl 0, fun k hk' => ?_⟩
      rw [lookup_spec (hg.isRoot hroot) hk', hg.find, Function.update_apply]
      simp only [hg.absent, and_true]
    · have hne : find t key ≠ none := Option.isSome_iff_ne_none.mp hsome
      refine ⟨ret, t, hr, by simp [hne, Int.ne_of_lt hneg], Int.le_of_lt hneg, fun k hk' => ?_⟩
      rw [lookup_spec hroot hk', if_neg (fun hc => hne hc.2)]
  · rcases remove_spec hroot hk with ⟨t', hr, hs⟩ | ⟨ret, hr, hneg, hnone⟩
    · refine ⟨0, t', hr, by simp [hs.present], Int.le_refl 0, fun k hk' => ?_⟩
      rw [lookup_spec (hs.isRoot hroot) hk', (hs.erases hroot.good).1 hroot.pfx,
        Function.update_apply]
    · refine ⟨ret, t, hr, by simp [hnone, Int.ne_of_lt hneg], Int.le_of_lt hneg, fun k hk' => ?_⟩
      rw [lookup_spec hroot hk']
      by_cases he : k = key
      · rw [if_pos he, he, hnone]
      · rw [if_neg he]

theorem radixTree_refines_forkTree :
    radixTreeLookup forkTree (some [charA, charB]) =
      some (record forkCalls (fun _ => none) [charA, charB]) ∧
    (∀ data, ∃ ret t', radixTreeInsert allOk forkTree (some [charA, charB]) (some data) =
        some (ret, t', allOk) ∧
      (ret = 0 ↔ record forkCalls (fun _ => none) [charA, charB] = none) ∧ ret ≤ 0 ∧
      ∀ k, k ≠ [] → radixTreeLookup t' (some k) = some
        (if k = [charA, charB] ∧ record forkCalls (fun _ => none) [charA, charB] = none then some data
          else record forkCalls (fun _ => none) k)) ∧
    ∃ ret t', radixTreeRemove allOk forkTree (some [charA, charB]) = some (ret, t', allOk) ∧
      (ret = 0 ↔ (record forkCalls (fun _ => none) [charA, charB]).isSome) ∧ ret ≤ 0 ∧
      ∀ k, k ≠ [] → radixTreeLookup t' (some k) =
        some (if k = [charA, charB] then none else record forkCalls (fun _ => none) k) :=
  radixTree_refines forkTree _ (forkTree_run _) [charA, charB] (List.cons_ne_nil _ _)

end DataStructures.Radix
