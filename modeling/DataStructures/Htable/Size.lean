import DataStructures.Htable.Correct

/-!
# What `size` says

Neither `htable_insert` nor `htable_delete` writes `size`, so it is exact only as long as
nothing is stored, and the capacity bounds nothing.
-/

namespace DataStructures.Htable

open Lib Runs

variable {K V : Type} {t t' : HtableT K V} {L : Nat → List Nat} {i : Nat}

/-- `size` is the number of entries, at most the capacity; and a full table takes no more. -/
def SizeExact (t : HtableT K V) : Prop :=
  ∃ n, stored (t.mem.next + 1) t = some n ∧ t.size.toNat = n ∧ n ≤ t.capacity.toNat ∧
    (n = t.capacity.toNat → ∀ key value outcomes, htableInsert (t.withOutcomes outcomes) (some key)
      (some value) = some (-2, t.withOutcomes outcomes))

theorem mapM_eq_some {α β : Type} {f : α → Option β} {g : α → β} {l : List α}
    (h : ∀ x ∈ l, f x = some (g x)) : l.mapM f = some (l.map g) := by
  induction l with
  | nil => rfl
  | cons x l ih =>
    rw [List.mapM_cons, h x List.mem_cons_self, ih (fun y hy => h y (List.mem_cons_of_mem _ hy))]
    rfl

theorem Holds.length_entries (h : Holds t L) (hi : i < t.capacity.toNat) :
    (entries t (L i)).length = (L i).length := by
  have hlive := h.live i hi
  generalize L i = as at hlive
  induction as with
  | nil => rfl
  | cons a as ih =>
    obtain ⟨node, hnode⟩ := hlive a List.mem_cons_self
    rw [entries, List.filterMap_cons_some hnode, List.length_cons, List.length_cons]
    exact congrArg (· + 1) (ih (fun b hb => hlive b (List.mem_cons_of_mem _ hb)))

theorem Holds.stored (h : Holds t L) : Htable.stored (t.mem.next + 1) t =
    some ((List.range t.capacity.toNat).map (fun i => (L i).length)).sum := by
  have hbuckets := mapM_eq_some (f := Htable.bucket (t.mem.next + 1) t) (g := fun i => entries t (L i))
    (l := List.range t.capacity.toNat) (fun i hi =>
      h.bucket (List.mem_range.mp hi) (Nat.lt_succ_of_le (h.length_le (List.mem_range.mp hi))))
  rw [Htable.stored, hbuckets]
  refine congrArg some (congrArg List.sum ?_)
  rw [List.map_map]
  refine List.map_congr_left ?_
  intro i hi
  exact h.length_entries (List.mem_range.mp hi)

/-- `size` is exact only while nothing is stored. -/
theorem Good.sizeExact_iff (h : Good t L) : SizeExact t ↔ ∀ i < t.capacity.toNat, L i = [] := by
  rw [SizeExact, h.1.stored]
  refine ⟨?_, ?_⟩
  · rintro ⟨n, hn, hsize, -, -⟩ i hi
    rw [h.2] at hsize
    have hzero := (Option.some.inj hn).trans hsize.symm
    have hlen := List.sum_eq_zero_iff.mp hzero (L i).length
      (List.mem_map.mpr ⟨i, List.mem_range.mpr hi, rfl⟩)
    exact List.length_eq_zero_iff.mp hlen
  · intro hempty
    have hsum : ((List.range t.capacity.toNat).map (fun i => (L i).length)).sum = 0 := by
      refine List.sum_eq_zero_iff.mpr ?_
      intro n hn
      obtain ⟨i, hi, rfl⟩ := List.mem_map.mp hn
      rw [hempty i (List.mem_range.mp hi)]
      rfl
    refine ⟨0, by rw [hsum], by rw [h.2]; rfl, Nat.zero_le _, ?_⟩
    intro hcap key value outcomes
    have hfull : t.size = t.capacity := by
      rw [h.2]
      exact BitVec.eq_of_toNat_eq hcap
    rw [htableInsert]
    exact if_pos hfull

/-- A call that stores makes `size` wrong. -/
theorem Good.not_sizeExact (h : Good t L) {op : Op K V} (hop : op.Stores t.capacity t.callbacks) :
    ∃ t', step t op = some t' ∧ ¬ SizeExact t' := by
  cases op with
  | delete key => exact hop.elim
  | insert key value outcomes =>
    obtain ⟨rv, t', L', hr, hsame, hgood, hstores, -, -⟩ := h.insert key value outcomes
    obtain ⟨i, hi, hne⟩ := hstores hop
    refine ⟨t', by rw [step, hr]; rfl, ?_⟩
    intro hexact
    exact hne (hgood.sizeExact_iff.mp hexact i (hsame.capacity ▸ hi))

/-- Another call on an empty table leaves it empty. -/
theorem Good.stays_empty (h : Good t L) (hempty : ∀ i < t.capacity.toNat, L i = []) {op : Op K V}
    (hop : ¬ op.Stores t.capacity t.callbacks) : ∃ t' L', step t op = some t' ∧ Same t t' ∧
      Good t' L' ∧ ∀ i < t'.capacity.toNat, L' i = [] := by
  cases op with
  | delete key =>
    obtain ⟨rv, t', L', hr, hsame, hgood, hsub, -⟩ := h.delete key
    refine ⟨t', L', by rw [step, hr]; rfl, hsame, hgood, ?_⟩
    intro i hi
    rw [hsame.capacity] at hi
    exact List.subset_nil.mp (hempty i hi ▸ hsub i hi)
  | insert key value outcomes =>
    obtain ⟨rv, t', L', hr, hsame, hgood, -, hno, -⟩ := h.insert key value outcomes
    refine ⟨t', L', by rw [step, hr]; rfl, hsame, hgood, ?_⟩
    intro i hi
    rw [hsame.capacity] at hi
    rw [hno hop]
    exact hempty i hi

theorem Good.along_sizeExact_iff (ops : List (Op K V)) (h : Good t L)
    (hempty : ∀ i < t.capacity.toNat, L i = []) :
    Along step SizeExact t ops ↔ ∀ op ∈ ops, ¬ op.Stores t.capacity t.callbacks := by
  induction ops generalizing t L with
  | nil => exact ⟨fun _ _ hm => absurd hm List.not_mem_nil, fun _ => h.sizeExact_iff.mpr hempty⟩
  | cons op ops ih =>
    rw [List.forall_mem_cons]
    by_cases hop : op.Stores t.capacity t.callbacks
    · obtain ⟨t', hstep, hwrong⟩ := h.not_sizeExact hop
      exact ⟨fun ha => absurd (ha.2 t' hstep).head hwrong, fun hno => absurd hop hno.1⟩
    · obtain ⟨t', L', hstep, hsame, hgood, hempty'⟩ := h.stays_empty hempty hop
      have hrest := ih hgood hempty'
      rw [hsame.capacity, hsame.callbacks] at hrest
      refine ⟨fun ha => ⟨hop, hrest.mp (ha.2 t' hstep)⟩, ?_⟩
      intro hno
      refine ⟨h.sizeExact_iff.mpr hempty, ?_⟩
      intro t'' hstep'
      obtain rfl := Option.some.inj (hstep.symm.trans hstep')
      exact hrest.mpr hno.2

/-- **`size` stays exact in a run exactly if no insertion of the run stores anything.** -/
theorem htable_size_exact_iff (h : Created t) (ops : List (Op K V)) :
    Along step SizeExact t ops ↔ ∀ op ∈ ops, ¬ op.Stores t.capacity t.callbacks :=
  Good.along_sizeExact_iff ops h.holds (fun _ _ => rfl)

/-- A run on a new table in which an allocation fails. -/
theorem htable_size_exact_iff_example : ∃ t : HtableT Nat Nat, Created t ∧
    (Along step SizeExact t [.insert (some 5) (some 7) (fun _ => false), .delete (some 5)] ↔
      ∀ op ∈ [Op.insert (some 5) (some 7) (fun _ => false), .delete (some 5)],
        ¬ op.Stores t.capacity t.callbacks) :=
  ⟨_, ⟨8, some exampleCallbacks, .allOk, fun x => ⟨x, x⟩, rfl⟩,
    htable_size_exact_iff ⟨8, some exampleCallbacks, .allOk, fun x => ⟨x, x⟩, rfl⟩ _⟩

/-- **A table of capacity 1 takes two entries, and its `size` is still 0.** -/
theorem htable_exceeds_capacity : ∃ t t' : HtableT Nat Nat, Created t ∧
    Runs.run step t [.insert (some 0) (some 7) .allOk, .insert (some 0) (some 8) .allOk] = some t' ∧
    t'.capacity = 1 ∧ t'.size = 0 ∧ stored 3 t' = some 2 :=
  ⟨_, _, ⟨1, some exampleCallbacks, .allOk, fun x => ⟨x, x⟩, rfl⟩, rfl, rfl, rfl, rfl⟩

end DataStructures.Htable
