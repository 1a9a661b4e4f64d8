import DataStructures.Htable.Calls

/-!
# What `htable_delete` reports

Every reachable table holds what its buckets say, with `size` 0.  `htable_delete` removes
the entries with equal keys and reports failure, also where it has removed some.
-/

namespace DataStructures.Htable

open Lib Kdlist Runs

variable {K V : Type} {t t' : HtableT K V} {L : Nat → List Nat} {i a : Nat} {key : K}

/-! ### Runs -/

/-- Where the entries of a table are, with its `size`. -/
def Good (t : HtableT K V) (L : Nat → List Nat) : Prop := Holds t L ∧ t.size = 0

/-- The call stores an entry in a table of this capacity. -/
def Op.Stores (capacity : BitVec 32) (callbacks : Callbacks K V) : Op K V → Prop
  | .insert key value outcomes => Htable.Stores capacity callbacks key value outcomes
  | .delete _ => False

/-- An insertion: a bucket gets an entry, or nothing changes. -/
theorem Good.insert (h : Good t L) (key : Option K) (value : Option V) (outcomes : Outcomes) :
    ∃ rv t' L', call t (.insert key value outcomes) = some (rv, t') ∧ Same t t' ∧ Good t' L' ∧
      (Stores t.capacity t.callbacks key value outcomes → ∃ i < t.capacity.toNat, L' i ≠ []) ∧
      (¬ Stores t.capacity t.callbacks key value outcomes → L' = L) ∧
      (CopiesHash t.callbacks → Placed t L → Placed t' L') := by
  have h' : Holds (t.withOutcomes outcomes) L := h.1.congr rfl rfl rfl
  obtain ⟨k, v, a, t', hk, -, hs, hr, hsame, hnone, hcells, hholds⟩ |
    ⟨hno, rv, t', hr, -, hsame, hcells, hholds⟩ := htableInsert_spec h' h.2 key value
  · have hlt : t.callbacks.hash k < t.capacity := by
      obtain ⟨k', -, hk', -, -, hlt, -⟩ := hs
      obtain rfl := Option.some.inj (hk.symm.trans hk')
      exact hlt
    refine ⟨0, t', _, hr, ⟨hsame.capacity, hsame.size, hsame.callbacks⟩,
      ⟨hholds, hsame.size.trans h.2⟩, fun _ => ⟨_, hlt, ?_⟩, fun hn => absurd hs hn, ?_⟩
    · exact List.ne_nil_of_mem (mem_update_append.mpr (Or.inr ⟨rfl, rfl⟩))
    · intro hcopy hplaced
      exact Placed.insert hplaced h' hcopy hsame hnone hcells
  · refine ⟨rv, t', L, hr, ⟨hsame.capacity, hsame.size, hsame.callbacks⟩,
      ⟨hholds, hsame.size.trans h.2⟩, fun hs => absurd hs hno, fun _ => rfl, ?_⟩
    intro _ hplaced i hi b hb node hn
    rw [hsame.callbacks]
    rw [hsame.capacity] at hi
    rw [hcells] at hn
    exact hplaced i hi b hb node hn

/-- A deletion: a bucket loses entries. -/
theorem Good.delete (h : Good t L) (key : Option K) :
    ∃ rv t' L', call t (.delete key) = some (rv, t') ∧ Same t t' ∧ Good t' L' ∧
      (∀ i < t.capacity.toNat, L' i ⊆ L i) ∧ (Placed t L → Placed t' L') := by
  cases key with
  | none => exact ⟨-1, t, L, rfl, .refl t, h, fun _ _ => List.Subset.refl _, id⟩
  | some key =>
    by_cases hi : t.callbacks.hash key < t.capacity
    · obtain ⟨rv, t', hr, -, hsame, hholds, hkeep⟩ :=
        htableDelete_spec h.1 key hi (Nat.lt_succ_self t.mem.next)
      refine ⟨rv, t', _, hr, hsame, ⟨hholds, hsame.size.trans h.2⟩, ?_, ?_⟩
      · exact fun i _ a ha => (mem_update_filter.mp ha).1
      · exact fun hplaced => hplaced.delete h.1 hi hsame hkeep
    · exact ⟨-2, t, L, htableDelete_of_le (BitVec.not_lt.mp hi), .refl t, h,
        fun _ _ => List.Subset.refl _, id⟩

/-- **Every reachable table holds the entries of its buckets, has `size` 0, and keeps each
entry in the bucket of its hash if copies hash as their originals.** -/
theorem Reachable.good (h : Reachable t) :
    ∃ L, Good t L ∧ (CopiesHash t.callbacks → Placed t L) := by
  obtain ⟨t₀, hc, hr⟩ := h
  refine Runs.Reachable.invariant
    (P := fun t => ∃ L, Good t L ∧ (CopiesHash t.callbacks → Placed t L)) ?_ ?_ hr
  · rintro t op t'' ⟨L, hgood, hplaced⟩ hstep
    obtain ⟨⟨rv, t'⟩, hcall, rfl⟩ := Option.map_eq_some_iff.mp hstep
    cases op with
    | insert key value outcomes =>
      obtain ⟨rv, t', L', hr, hsame, hgood', -, -, hplaced'⟩ := hgood.insert key value outcomes
      obtain ⟨-, rfl⟩ := Prod.mk.inj (Option.some.inj (hcall.symm.trans hr))
      refine ⟨L', hgood', ?_⟩
      rw [hsame.callbacks]
      exact fun hcopy => hplaced' hcopy (hplaced hcopy)
    | delete key =>
      obtain ⟨rv, t', L', hr, hsame, hgood', -, hplaced'⟩ := hgood.delete key
      obtain ⟨-, rfl⟩ := Prod.mk.inj (Option.some.inj (hcall.symm.trans hr))
      refine ⟨L', hgood', ?_⟩
      rw [hsame.callbacks]
      exact fun hcopy => hplaced' (hplaced hcopy)
  · exact ⟨_, hc.holds, fun _ i _ a ha => absurd ha List.not_mem_nil⟩

/-! ### What a deletion reports -/

/-- The entries other than those with equal keys. -/
def others (t : HtableT K V) (key : K) (es : List (HtableNode K V)) : List (HtableNode K V) :=
  es.filter (fun node => t.callbacks.cmp key node.key != 0)

theorem others_eq_self {es : List (HtableNode K V)}
    (h : ∀ node ∈ es, t.callbacks.cmp key node.key ≠ 0) : others t key es = es :=
  List.filter_eq_self.mpr (fun node hn => bne_iff_ne.mpr (h node hn))

theorem ne_of_mem_others {es : List (HtableNode K V)} {node : HtableNode K V}
    (h : node ∈ others t key es) : t.callbacks.cmp key node.key ≠ 0 :=
  bne_iff_ne.mp (List.mem_filter.mp h).2

/-- Some stored key compares equal. -/
def Stored (t : HtableT K V) (key : K) (es : Nat → List (HtableNode K V)) : Prop :=
  ∃ i < t.capacity.toNat, ∃ node ∈ es i, t.callbacks.cmp key node.key = 0

/-- No stored key compares equal any more, and the other entries are as they were. -/
structure Removed (t : HtableT K V) (key : K) (es es' : Nat → List (HtableNode K V)) : Prop where
  gone : ∀ i < t.capacity.toNat, ∀ node ∈ es' i, t.callbacks.cmp key node.key ≠ 0
  rest : ∀ i < t.capacity.toNat, es' i = others t key (es i)

/-- A deletion that reports its result: it returns 0 exactly if some stored key compared
equal, a negative value otherwise, and has removed the equal keys and nothing else. -/
structure Reports (t : HtableT K V) (key : K) (rv : Int) (es es' : Nat → List (HtableNode K V)) :
    Prop where
  zero : rv = 0 ↔ Stored t key es
  negative : ¬ Stored t key es → rv < 0
  removed : Removed t key es es'

/-- A deletion that returns a negative value reports its result only if there was nothing
to delete. -/
theorem reports_iff {rv : Int} {es es' : Nat → List (HtableNode K V)} (hrv : rv < 0)
    (hes : ∀ i < t.capacity.toNat, es' i = es i ∨ es' i = others t key (es i)) :
    Reports t key rv es es' ↔ ¬ Stored t key es := by
  refine ⟨?_, ?_⟩
  · intro h hs
    exact absurd (h.zero.mpr hs) (Int.ne_of_lt hrv)
  · intro hno
    have hne : ∀ i < t.capacity.toNat, ∀ node ∈ es i, t.callbacks.cmp key node.key ≠ 0 :=
      fun i hi node hn hc => hno ⟨i, hi, node, hn, hc⟩
    have hrest : ∀ i < t.capacity.toNat, es' i = others t key (es i) := by
      intro i hi
      obtain he | he := hes i hi
      · rw [he, others_eq_self (hne i hi)]
      · exact he
    refine ⟨⟨fun h0 => absurd h0 (Int.ne_of_lt hrv), fun hs => absurd hs hno⟩, fun _ => hrv, ?_,
      hrest⟩
    intro i hi node hn
    rw [hrest i hi] at hn
    exact ne_of_mem_others hn

/-- A deletion in terms of the buckets it reads and leaves. -/
theorem Reachable.delete (h : Reachable t) (hkey : t.callbacks.hash key < t.capacity)
    {fuel : Nat} (hfuel : t.mem.next < fuel) :
    ∃ (rv : Int) (t' : HtableT K V) (es : Nat → List (HtableNode K V)),
      htableDelete fuel t (some key) = some (rv, t') ∧ rv < 0 ∧
      (∀ i < t.capacity.toNat, bucket fuel t i = some (es i) ∧ bucket fuel t' i =
        some (if i = (t.callbacks.hash key).toNat then others t key (es i) else es i)) ∧
      (CopiesHash t.callbacks → ∀ i < t.capacity.toNat, ∀ node ∈ es i,
        (t.callbacks.hash node.key).toNat = i) := by
  obtain ⟨L, hgood, hplaced⟩ := h.good
  obtain ⟨rv, t', hr, hrv, hsame, hholds, hkeep⟩ := htableDelete_spec hgood.1 key hkey hfuel
  refine ⟨rv, t', fun i => entries t (L i), hr, hrv, ?_, ?_⟩
  · intro i hi
    have hlen := hgood.1.length_le hi
    refine ⟨hgood.1.bucket hi (by omega), ?_⟩
    have hi' : i < t'.capacity.toNat := hsame.capacity ▸ hi
    obtain rfl | hne := eq_or_ne i (t.callbacks.hash key).toNat
    · rw [if_pos rfl, hholds.bucket hi', Function.update_self, others]
      · rw [entries_filter (hgood.1.live _ hi) (fun a ha he => hkeep a (fun _ => he))]
      · rw [Function.update_self]
        exact Nat.lt_of_le_of_lt (List.length_filter_le _ _) (by omega)
    · rw [if_neg hne, hholds.bucket hi', Function.update_of_ne hne]
      · refine congrArg some (List.filterMap_congr ?_)
        intro a ha
        exact hkeep a (fun ha' => absurd ha' (hgood.1.disjoint hi hkey hne ha))
      · rw [Function.update_of_ne hne]
        omega
  · intro hcopy i hi node hn
    obtain ⟨a, ha, hcell⟩ := List.mem_filterMap.mp hn
    exact hplaced hcopy i hi a ha node hcell

/-- **`htable_delete` reports its result exactly if there is nothing to delete**: it never
returns 0.  The removal itself is right wherever equal keys hash equally. -/
theorem htable_delete_reports_iff (h : Reachable t) (hkey : t.callbacks.hash key < t.capacity)
    {fuel : Nat} (hfuel : t.mem.next < fuel) :
    ∃ rv t' es es', htableDelete fuel t (some key) = some (rv, t') ∧
      (∀ i < t.capacity.toNat, bucket fuel t i = some (es i) ∧ bucket fuel t' i = some (es' i)) ∧
      (Reports t key rv es es' ↔ ¬ Stored t key es) ∧
      (CopiesHash t.callbacks →
        (∀ k k', t.callbacks.cmp k k' = 0 → t.callbacks.hash k = t.callbacks.hash k') →
        Removed t key es es') := by
  obtain ⟨rv, t', es, hr, hrv, hbuckets, hplaced⟩ := h.delete hkey hfuel
  refine ⟨rv, t', es, fun i => if i = (t.callbacks.hash key).toNat then others t key (es i) else es i,
    hr, hbuckets, reports_iff hrv ?_, ?_⟩
  · intro i _
    split
    · exact Or.inr rfl
    · exact Or.inl rfl
  · intro hcopy hequal
    have hrest : ∀ i < t.capacity.toNat,
        (if i = (t.callbacks.hash key).toNat then others t key (es i) else es i) =
          others t key (es i) := by
      intro i hi
      split
      · rfl
      · rename_i hne
        refine (others_eq_self ?_).symm
        intro node hn hcmp
        apply hne
        rw [hequal _ _ hcmp]
        exact (hplaced hcopy i hi node hn).symm
    refine ⟨?_, hrest⟩
    intro i hi node hn
    rw [hrest i hi] at hn
    exact ne_of_mem_others hn

/-- Keys that hash to themselves and compare by subtraction. -/
def exampleCallbacks : Callbacks Nat Nat where
  hash := fun k => BitVec.ofNat 32 k
  cmp := fun k k' => (k : Int) - k'
  allocKey := id
  allocValue := id

/-- Key 5 is stored in a table of capacity 8, and deleted. -/
theorem htable_delete_reports_iff_example : ∃ t : HtableT Nat Nat, Reachable t ∧
    ∃ rv t' es es', htableDelete 2 t (some 5) = some (rv, t') ∧
      (∀ i < 8, bucket 2 t i = some (es i) ∧ bucket 2 t' i = some (es' i)) ∧
      (Reports t 5 rv es es' ↔ ¬ Stored t 5 es) := by
  have h : Reachable (K := Nat) (V := Nat) _ := ⟨_, ⟨8, some exampleCallbacks, .allOk,
    fun x => ⟨x, x⟩, rfl⟩, [.insert (some 5) (some 7) .allOk], rfl⟩
  refine ⟨_, h, ?_⟩
  obtain ⟨rv, t', es, es', hr, hbuckets, hiff, -⟩ :=
    @htable_delete_reports_iff Nat Nat _ 5 h (by decide) 2 (by decide)
  exact ⟨rv, t', es, es', hr, hbuckets, hiff⟩

/-- **A stored key is deleted, and the call returns -4.** -/
theorem htable_delete_found_fails : ∃ t t' : HtableT Nat Nat, Reachable t ∧
    (∀ k k', t.callbacks.cmp k k' = 0 → t.callbacks.hash k = t.callbacks.hash k') ∧
    t.callbacks.hash 5 < t.capacity ∧ bucket 2 t 5 = some [⟨5, 7⟩] ∧ t.callbacks.cmp 5 5 = 0 ∧
    htableDelete 2 t (some 5) = some (-4, t') ∧ bucket 2 t' 5 = some [] := by
  refine ⟨_, _, ⟨_, ⟨8, some exampleCallbacks, .allOk, fun x => ⟨x, x⟩, rfl⟩,
    [.insert (some 5) (some 7) .allOk], rfl⟩, ?_, by decide, rfl, rfl, rfl, rfl⟩
  intro k k' h
  exact congrArg (BitVec.ofNat 32) (Int.ofNat_inj.mp (sub_eq_zero.mp h))

end DataStructures.Htable
