import DataStructures.Htable.Size
import DataStructures.Lib.Loops
import Mathlib.Data.List.Range

/-!
# The end of a hash table, and what is printed of it

`htable_destroy` frees the entries bucket by bucket; it gives each key and each value back to the
callbacks.  `htable_print` goes the same way.  Both use `kdlist_for_each_safe`, which reads `next`
of a node before the node is freed: `readNext` is `none` where it would be too late.

`Tight t L`: no entry is allocated but those in the buckets.  Insertions and deletions keep it, so
`htable_destroy` leaves nothing behind.
-/

namespace DataStructures.Htable

open Lib Kdlist

variable {K V : Type} {t t' : HtableT K V} {L : Nat → List Nat} {i a : Nat} {key : K}

/-- `it->next`, of a node that is not part of a freed entry. -/
def readNext (htable : HtableT K V) : Node → Option Node
  | .head i => some (htable.links (.head i)).next
  | .entry a => (htable.mem.load (some a)).map (fun _ => (htable.links (.entry a)).next)

/-- `kdlist_for_each_safe` of `htable_destroy`, from `it` on, with `aux` already read; with the
entries whose key and value have been given to `free_key` and `free_value`. -/
def destroyEach (head : Node) : Nat → HtableT K V × List (HtableNode K V) → Node → Node →
    Option (HtableT K V × List (HtableNode K V))
  | 0, _, _, _ => none
  | fuel + 1, (htable, freed), it, aux =>
      if it = head then some (htable, freed)
      else
        match it with
        | .head _ => none  -- not part of an entry
        | .entry a => do
            let node ← htable.mem.load (some a)
            let mem ← htable.mem.free (some a)
            let htable := { htable with mem := mem }
            let next ← readNext htable aux
            destroyEach head fuel (htable, freed ++ [node]) aux next

/-- A round of `htable_destroy`. -/
def destroyBucket (fuel : Nat) (s : HtableT K V × List (HtableNode K V)) (i : Nat) :
    Option (HtableT K V × List (HtableNode K V)) := do
  let it := (s.1.links (.head i)).next
  let aux ← readNext s.1 it
  destroyEach (.head i) fuel s it aux

/-- `htable_destroy`: the memory it leaves, and the entries it has destroyed. -/
def htableDestroy (fuel : Nat) (htable : HtableT K V) :
    Option (Memory (HtableNode K V) × List (HtableNode K V)) := do
  let s ← (List.range htable.capacity.toNat).foldlM (destroyBucket fuel) (htable, [])
  return (s.1.mem, s.2)

/-- What is printed. -/
inductive Line (K V : Type) where
  | capacity (n : BitVec 32)
  | size (n : BitVec 32)
  | bucket (i : Nat)
  | empty
  | key (k : K)
  | value (v : V)

/-- `kdlist_for_each_safe` of `htable_print`. -/
def printEach (htable : HtableT K V) (head : Node) : Nat → Node → Node → Option (List (Line K V))
  | 0, _, _ => none
  | fuel + 1, it, aux =>
      if it = head then some []
      else
        match it with
        | .head _ => none
        | .entry a => do
            let node ← htable.mem.load (some a)
            let next ← readNext htable aux
            let lines ← printEach htable head fuel aux next
            return .key node.key :: .value node.value :: lines

/-- A round of `htable_print`. -/
def printBucket (fuel : Nat) (htable : HtableT K V) (i : Nat) : Option (List (Line K V)) :=
  if kdlistIsEmpty htable.links (.head i) then some [.bucket i, .empty]
  else do
    let it := (htable.links (.head i)).next
    let aux ← readNext htable it
    let lines ← printEach htable (.head i) fuel it aux
    return .bucket i :: lines

/-- `htable_print`. -/
def htablePrint (fuel : Nat) (htable : HtableT K V) : Option (List (Line K V)) := do
  let lines ← (List.range htable.capacity.toNat).mapM (printBucket fuel htable)
  return .capacity htable.capacity :: .size htable.size :: lines.flatten

/-! ### Nothing else is allocated -/

/-- Every entry that is allocated is in a bucket. -/
def Tight (t : HtableT K V) (L : Nat → List Nat) : Prop :=
  ∀ a, t.mem.cells a ≠ none → ∃ i < t.capacity.toNat, a ∈ L i

/-- **The loop of a deletion frees what it takes out**: by induction on the rest of the list, as in
`deleteEach_spec`, which says that an address that has been passed stays as it is. -/
theorem deleteEach_frees (key : K) (hi : i < t.capacity.toNat) (fuel : Nat) (l r : List Nat)
    (h : Holds t L) (hl : L i = l ++ r) (hfuel : r.length < fuel)
    (hr : deleteEach key (.head i) fuel t (first i r) (t.links (first i r)).next = some t') :
    ∀ a ∈ r, t.equal key a = true → t'.mem.cells a = none := by
  induction r generalizing t L l fuel with
  | nil => exact fun a ha => absurd ha List.not_mem_nil
  | cons a r ih =>
    rw [List.length_cons] at hfuel
    obtain ⟨n, rfl⟩ := Nat.exists_eq_succ_of_ne_zero (Nat.ne_of_gt (Nat.zero_lt_of_lt hfuel))
    have hnotMem := h.not_mem_others hi hl
    obtain ⟨node, hnode⟩ := h.live i hi a (hl ▸ List.mem_append_right l List.mem_cons_self)
    have hload : t.mem.load (some a) = some node := hnode
    have hequal := equal_of_cells key hnode
    have hnext : (t.links (first i (a :: r))).next = first i r := h.next_entry hi hl
    rw [hnext, first, deleteEach, if_neg Node.noConfusion] at hr
    dsimp only at hr
    rw [hload, Option.bind_eq_bind, Option.bind_some] at hr
    by_cases hcmp : t.callbacks.cmp key node.key = 0
    · obtain ⟨mem, hfree, hcell, honly⟩ := Memory.free_spec hnode
      have hcells := honly.cells_eq hcell
      rw [if_pos hcmp, hfree, Option.bind_eq_bind, Option.bind_some] at hr
      have hout := h.unlink hi hl hcells
      have hrest : Function.update L i (l ++ r) i = l ++ r := Function.update_self ..
      obtain ⟨t₁, hr₁, -, -, hkeep⟩ :=
        deleteEach_spec key (t := { t with links := Htable.unlink t.links (.entry a), mem := mem })
          hi n l r hout hrest (by omega)
      obtain rfl := Option.some.inj (hr.symm.trans hr₁)
      intro b hb hbe
      by_cases hba : b = a
      · subst hba
        rw [hkeep b (fun hm => absurd (List.mem_append_right l hm) hnotMem)]
        exact hcell
      · have hbr := (List.mem_cons.mp hb).resolve_left hba
        refine ih (t := { t with links := Htable.unlink t.links (.entry a), mem := mem }) hi n l hout
          hrest (by omega) hr b hbr ?_
        have hcellb : mem.cells b = t.mem.cells b := by
          rw [hcells, Function.update_of_ne hba]
        have hkept : HtableT.equal
            { t with links := Htable.unlink t.links (.entry a), mem := mem } key b = t.equal key b :=
          equal_congr key rfl hcellb
        exact hkept.trans hbe
    · rw [if_neg hcmp] at hr
      intro b hb hbe
      rcases List.mem_cons.mp hb with rfl | hbr
      · exact absurd (beq_iff_eq.mp (hequal.symm.trans hbe)) hcmp
      · exact ih hi n (l ++ [a]) h (by rw [hl, List.append_assoc]; rfl) (by omega) hr b hbr hbe

/-- **What a deletion takes out of its bucket is freed.** -/
theorem htableDelete_frees (h : Holds t L) (key : K) (hi : t.callbacks.hash key < t.capacity) {rv : Int}
    (hr : htableDelete (t.mem.next + 1) t (some key) = some (rv, t')) :
    ∀ a ∈ L (t.callbacks.hash key).toNat, t.equal key a = true → t'.mem.cells a = none := by
  have hi' : (t.callbacks.hash key).toNat < t.capacity.toNat := hi
  intro a ha
  have hempty := mt (h.isEmpty_iff hi').mp (List.ne_nil_of_mem ha)
  rw [htableDelete, if_neg (BitVec.not_le.mpr hi), if_neg hempty] at hr
  obtain ⟨t₁, hr₁, he⟩ := Option.bind_eq_some_iff.mp hr
  obtain ⟨-, rfl⟩ := Prod.mk.inj (Option.some.inj he)
  rw [h.next_head hi'] at hr₁
  exact deleteEach_frees key hi' _ [] _ h rfl (Nat.lt_succ_of_le (h.length_le hi')) hr₁ a ha

theorem Created.mem_empty (h : Created t) (a : Nat) : t.mem.cells a = none := by
  obtain ⟨capacity, callbacks, outcomes, links, hc⟩ := h
  cases callbacks with
  | none => exact absurd (Option.some.inj hc) (by simp)
  | some callbacks =>
    rw [htableCreate] at hc
    split at hc
    · exact absurd hc (by simp)
    · split at hc
      · exact absurd hc (by simp)
      · split at hc
        · exact absurd hc (by simp)
        · obtain rfl := Option.some.inj (Option.some.inj hc)
          rfl

/-- A table with its buckets, in which nothing else is allocated. -/
def Full (t : HtableT K V) (L : Nat → List Nat) : Prop := Good t L ∧ Tight t L

theorem Full.insert (h : Full t L) (key : Option K) (value : Option V) (outcomes : Outcomes) :
    ∃ rv t' L', call t (.insert key value outcomes) = some (rv, t') ∧ Full t' L' := by
  obtain ⟨⟨hholds, hsize⟩, htight⟩ := h
  have h' : Holds (t.withOutcomes outcomes) L := hholds.congr rfl rfl rfl
  obtain ⟨k, v, a, t', hk, -, hs, hr, hsame, -, hcells, hholds'⟩ | ⟨-, rv, t', hr, -, hsame, hcells, hholds'⟩ :=
    htableInsert_spec h' hsize key value
  · have hi : (t.callbacks.hash k).toNat < t.capacity.toNat := by
      obtain ⟨k', -, hk', -, -, hlt, -⟩ := hs
      obtain rfl := Option.some.inj (hk.symm.trans hk')
      exact hlt
    refine ⟨0, t', _, hr, ⟨hholds', hsame.size.trans hsize⟩, ?_⟩
    intro b hb
    rw [hsame.capacity]
    rw [hcells] at hb
    by_cases hba : b = a
    · exact ⟨_, hi, mem_update_append.mpr (.inr ⟨rfl, hba⟩)⟩
    · rw [Function.update_of_ne hba] at hb
      obtain ⟨j, hj, hbj⟩ := htight b hb
      exact ⟨j, hj, mem_update_append.mpr (.inl hbj)⟩
  · refine ⟨rv, t', L, hr, ⟨hholds', hsame.size.trans hsize⟩, ?_⟩
    intro a ha
    rw [hcells] at ha
    rw [hsame.capacity]
    exact htight a ha

theorem Full.delete (h : Full t L) (key : Option K) :
    ∃ rv t' L', call t (.delete key) = some (rv, t') ∧ Full t' L' := by
  cases key with
  | none => exact ⟨-1, t, L, rfl, h⟩
  | some key =>
    by_cases hi : t.callbacks.hash key < t.capacity
    · have hi' : (t.callbacks.hash key).toNat < t.capacity.toNat := hi
      obtain ⟨⟨hholds, hsize⟩, htight⟩ := h
      obtain ⟨rv, t', hr, -, hsame, hholds', hkeep⟩ :=
        htableDelete_spec hholds key hi (Nat.lt_succ_self t.mem.next)
      refine ⟨rv, t', _, hr, ⟨hholds', hsame.size.trans hsize⟩, ?_⟩
      intro b hb
      rw [hsame.capacity]
      -- a key that is equal has been freed, and any other entry is where it was
      have hcase : b ∈ L (t.callbacks.hash key).toNat → t.equal key b = false := by
        intro hbi
        by_contra he
        exact hb (htableDelete_frees hholds key hi hr b hbi (Bool.not_eq_false _ ▸ he))
      rw [hkeep b hcase] at hb
      obtain ⟨j, hj, hbj⟩ := htight b hb
      refine ⟨j, hj, mem_update_filter.mpr ⟨hbj, ?_⟩⟩
      rintro rfl
      rw [hcase hbj]
      rfl
    · exact ⟨-2, t, L, htableDelete_of_le (BitVec.not_lt.mp hi), h⟩

/-- **Nothing but the entries in the buckets is allocated** in a table that calls lead to. -/
theorem Reachable.full (h : Reachable t) : ∃ L, Full t L := by
  obtain ⟨t₀, hc, hr⟩ := h
  refine Runs.Reachable.invariant (P := fun t => ∃ L, Full t L) ?_ ?_ hr
  · rintro t op t'' ⟨L, hfull⟩ hstep
    obtain ⟨⟨rv, t'⟩, hcall, rfl⟩ := Option.map_eq_some_iff.mp hstep
    have hnext : ∃ rv t' L', call t op = some (rv, t') ∧ Full t' L' := by
      cases op with
      | insert key value outcomes => exact hfull.insert key value outcomes
      | delete key => exact hfull.delete key
    obtain ⟨rv', t₁, L', hcall', hfull'⟩ := hnext
    obtain ⟨-, rfl⟩ := Prod.mk.inj (Option.some.inj (hcall.symm.trans hcall'))
    exact ⟨L', hfull'⟩
  · exact ⟨_, hc.holds, fun a ha => absurd (hc.mem_empty a) ha⟩

/-! ### Destroying -/

variable {mem : Memory (HtableNode K V)}

/-- The node behind the next one of a bucket can be read while that one is there. -/
theorem Holds.readNext (h : Holds t L) (hi : i < t.capacity.toNat) {l r : List Nat} (hl : L i = l ++ r)
    (hlive : ∀ b ∈ r, mem.cells b = t.mem.cells b) :
    ∃ aux, Htable.readNext { t with mem := mem } (first i r) = some aux ∧
      (∀ b r', r = b :: r' → aux = first i r') := by
  cases r with
  | nil => exact ⟨_, rfl, fun b r' hr => absurd hr (List.cons_ne_nil _ _).symm⟩
  | cons a r =>
    obtain ⟨node, hnode⟩ := h.live i hi a (hl ▸ List.mem_append_right l List.mem_cons_self)
    refine ⟨first i r, ?_, ?_⟩
    · have hload : mem.load (some a) = some node := (hlive a List.mem_cons_self).trans hnode
      rw [first, Htable.readNext, hload, ← h.next_entry hi hl]
      rfl
    · intro b r' hr
      rw [(List.cons.inj hr).2]

/-- **The loop destroys the rest of the bucket.** -/
theorem destroyEach_spec (h : Holds t L) (hi : i < t.capacity.toNat) {l r : List Nat}
    (hl : L i = l ++ r) (hlive : ∀ b ∈ r, mem.cells b = t.mem.cells b) {fuel : Nat}
    (hfuel : r.length < fuel) (freed : List (HtableNode K V)) {aux : Node}
    (haux : Htable.readNext { t with mem := mem } (first i r) = some aux) :
    ∃ mem', destroyEach (.head i) fuel ({ t with mem := mem }, freed) (first i r) aux =
        some ({ t with mem := mem' }, freed ++ entries t r) ∧
      (∀ b ∈ r, mem'.cells b = none) ∧ ∀ b, b ∉ r → mem'.cells b = mem.cells b := by
  induction r generalizing l mem fuel freed aux with
  | nil =>
    obtain ⟨n, rfl⟩ := Nat.exists_eq_succ_of_ne_zero (Nat.ne_of_gt hfuel)
    refine ⟨mem, ?_, fun b hb => absurd hb List.not_mem_nil, fun _ _ => rfl⟩
    rw [first, destroyEach, if_pos rfl, entries, List.filterMap_nil, List.append_nil]
  | cons a r ih =>
    rw [List.length_cons] at hfuel
    obtain ⟨n, rfl⟩ := Nat.exists_eq_succ_of_ne_zero (Nat.ne_of_gt (Nat.zero_lt_of_lt hfuel))
    have hnotMem := h.not_mem_others hi hl
    obtain ⟨node, hnode⟩ := h.live i hi a (hl ▸ List.mem_append_right l List.mem_cons_self)
    have hcell : mem.cells a = some node := (hlive a List.mem_cons_self).trans hnode
    obtain ⟨mem₁, hfree, hnone, honly⟩ := Memory.free_spec hcell
    have hl' : L i = (l ++ [a]) ++ r := by rw [hl, List.append_assoc]; rfl
    have hne : ∀ b ∈ r, b ≠ a := fun b hb he => hnotMem (List.mem_append_right l (he ▸ hb))
    have hkeep : ∀ b, b ≠ a → mem₁.cells b = mem.cells b := by
      intro b hba
      exact honly.cells b (fun hm => hba (List.mem_singleton.mp hm))
    have hlive₁ : ∀ b ∈ r, mem₁.cells b = t.mem.cells b := by
      intro b hb
      rw [hkeep b (hne b hb)]
      exact hlive b (List.mem_cons_of_mem _ hb)
    obtain ⟨aux', haux', hnext⟩ := h.readNext hi hl hlive
    obtain rfl := Option.some.inj (haux.symm.trans haux')
    rw [hnext a r rfl]
    obtain ⟨aux₁, haux₁, -⟩ := h.readNext hi hl' hlive₁
    obtain ⟨mem', hr, hgone, hsame⟩ :=
      ih hl' hlive₁ (Nat.lt_of_succ_lt_succ hfuel) (freed ++ [node]) haux₁
    have hload : mem.load (some a) = some node := hcell
    have hentries : entries t (a :: r) = node :: entries t r := List.filterMap_cons_some hnode
    refine ⟨mem', ?_, ?_, ?_⟩
    · rw [first, destroyEach, if_neg Node.noConfusion]
      dsimp only
      rw [hload, Option.bind_eq_bind, Option.bind_some, hfree, Option.bind_eq_bind, Option.bind_some,
        haux₁, Option.bind_eq_bind, Option.bind_some, hr, hentries, List.append_assoc]
      rfl
    · intro b hb
      by_cases hbr : b ∈ r
      · exact hgone b hbr
      · obtain rfl := (List.mem_cons.mp hb).resolve_right hbr
        exact (hsame b hbr).trans hnone
    · intro b hb
      have hb' := not_or.mp (fun hm => hb (List.mem_cons.mpr hm))
      exact (hsame b hb'.2).trans (hkeep b hb'.1)

theorem destroyBucket_spec (h : Holds t L) (hi : i < t.capacity.toNat)
    (hlive : ∀ b ∈ L i, mem.cells b = t.mem.cells b) {fuel : Nat} (hfuel : (L i).length < fuel)
    (freed : List (HtableNode K V)) :
    ∃ mem', destroyBucket fuel ({ t with mem := mem }, freed) i =
        some ({ t with mem := mem' }, freed ++ entries t (L i)) ∧
      (∀ b ∈ L i, mem'.cells b = none) ∧ ∀ b, b ∉ L i → mem'.cells b = mem.cells b := by
  have hl : L i = [] ++ L i := rfl
  obtain ⟨aux, haux, -⟩ := h.readNext hi hl hlive
  obtain ⟨mem', hr, hgone, hsame⟩ := destroyEach_spec h hi hl hlive hfuel freed haux
  refine ⟨mem', ?_, hgone, hsame⟩
  rw [destroyBucket]
  dsimp only
  rw [h.next_head hi, haux, Option.bind_eq_bind, Option.bind_some, hr]

/-- **`htable_destroy` frees the entries of all buckets**, and leaves other addresses as they are. -/
theorem htableDestroy_spec (h : Holds t L) {fuel : Nat} (hfuel : t.mem.next < fuel) :
    ∃ mem, htableDestroy fuel t = some (mem, (List.range t.capacity.toNat).flatMap (fun i => entries t (L i))) ∧
      (∀ i < t.capacity.toNat, ∀ b ∈ L i, mem.cells b = none) ∧
      ∀ b, (∀ i < t.capacity.toNat, b ∉ L i) → mem.cells b = t.mem.cells b := by
  have hloop := loop_spec (l := List.range t.capacity.toNat) (f := destroyBucket fuel) (s := (t, []))
    (fun done s => ∃ mem, s = ({ t with mem := mem }, done.flatMap (fun i => entries t (L i))) ∧
      (∀ i ∈ done, ∀ b ∈ L i, mem.cells b = none) ∧
      ∀ b, (∀ i ∈ done, b ∉ L i) → mem.cells b = t.mem.cells b)
    ⟨t.mem, rfl, fun i hi => absurd hi List.not_mem_nil, fun _ _ => rfl⟩ ?_
  · obtain ⟨s, hr, mem, rfl, hgone, hsame⟩ := hloop
    refine ⟨mem, ?_, ?_, ?_⟩
    · rw [htableDestroy, hr]
      rfl
    · exact fun i hi => hgone i (List.mem_range.mpr hi)
    · exact fun b hb => hsame b (fun i hi => hb i (List.mem_range.mp hi))
  · rintro done i todo hl s ⟨mem, rfl, hgone, hsame⟩
    have hmem : ∀ j ∈ done, j < t.capacity.toNat ∧ j ≠ i := by
      intro j hj
      have hnodup := hl ▸ List.nodup_range (n := t.capacity.toNat)
      refine ⟨List.mem_range.mp (hl ▸ List.mem_append_left _ hj), ?_⟩
      rintro rfl
      exact (List.nodup_middle.mp hnodup).notMem (List.mem_append_left _ hj)
    have hi : i < t.capacity.toNat :=
      List.mem_range.mp (hl ▸ List.mem_append_right done List.mem_cons_self)
    have hlive : ∀ b ∈ L i, mem.cells b = t.mem.cells b := by
      intro b hb
      refine hsame b (fun j hj => ?_)
      exact h.disjoint hi (hmem j hj).1 (hmem j hj).2.symm hb
    have hlen := h.length_le hi
    have hlt : (L i).length < fuel := Nat.lt_of_le_of_lt hlen hfuel
    obtain ⟨mem', hr, hgone', hsame'⟩ := destroyBucket_spec h hi hlive hlt
      (done.flatMap (fun i => entries t (L i)))
    refine ⟨_, hr, mem', ?_, forall_mem_concat ?_ hgone', ?_⟩
    · rw [List.flatMap_append, List.flatMap_singleton]
    · intro j hj b hb
      rw [hsame' b (h.disjoint (hmem j hj).1 hi (hmem j hj).2 hb)]
      exact hgone j hj b hb
    · intro b hb
      rw [hsame' b (hb i (List.mem_append_right done List.mem_cons_self))]
      exact hsame b (fun j hj => hb j (List.mem_append_left _ hj))

/-- **`htable_destroy` ends the life of a table.**  After any insertions and deletions it frees every
entry once, in the order of the buckets, and no entry is left: none is lost and none is used after
it has been freed. -/
theorem htable_life (h : Reachable t) {fuel : Nat} (hfuel : t.mem.next < fuel) :
    ∃ (es : Nat → List (HtableNode K V)) (mem : Memory (HtableNode K V)),
      (∀ i < t.capacity.toNat, bucket fuel t i = some (es i)) ∧
      htableDestroy fuel t = some (mem, (List.range t.capacity.toNat).flatMap es) ∧
      ∀ a, mem.cells a = none := by
  obtain ⟨L, ⟨hholds, -⟩, htight⟩ := h.full
  obtain ⟨mem, hr, hgone, hsame⟩ := htableDestroy_spec hholds hfuel
  refine ⟨fun i => entries t (L i), mem, ?_, hr, ?_⟩
  · intro i hi
    exact hholds.bucket hi (Nat.lt_of_le_of_lt (hholds.length_le hi) hfuel)
  · intro a
    by_cases ha : ∀ i < t.capacity.toNat, a ∉ L i
    · rw [hsame a ha]
      by_contra hne
      obtain ⟨i, hi, hai⟩ := htight a hne
      exact ha i hi hai
    · push Not at ha
      obtain ⟨i, hi, hai⟩ := ha
      exact hgone i hi a hai

/-- Callbacks with four hash values. -/
def collidingCallbacks : Callbacks Nat Nat := { exampleCallbacks with hash := fun k => BitVec.ofNat 32 (k % 4) }

/-- Four insertions, three of them into one bucket, and a deletion there. -/
def exampleOps : List (Op Nat Nat) :=
  [.insert (some 5) (some 7) .allOk, .insert (some 1) (some 8) .allOk, .insert (some 9) (some 6) .allOk,
    .insert (some 2) (some 3) .allOk, .delete (some 1)]

/-- An empty table with eight buckets. -/
def startTable : HtableT Nat Nat :=
  ((htableCreate 8 (some collidingCallbacks) .allOk (fun x => ⟨x, x⟩)).get rfl).get rfl

theorem exampleOps_isSome : (Runs.run step startTable exampleOps).isSome := by decide +kernel

/-- The table after these calls. -/
def exampleTable : HtableT Nat Nat := (Runs.run step startTable exampleOps).get exampleOps_isSome

theorem exampleTable_reachable : Reachable exampleTable :=
  ⟨startTable, ⟨8, some collidingCallbacks, .allOk, fun x => ⟨x, x⟩, rfl⟩, exampleOps,
    (Option.some_get exampleOps_isSome).symm⟩

theorem exampleTable_next : exampleTable.mem.next = 4 := by decide +kernel

theorem htable_life_exampleTable :
    ∃ (es : Nat → List (HtableNode Nat Nat)) (mem : Memory (HtableNode Nat Nat)),
      (∀ i < exampleTable.capacity.toNat, bucket 5 exampleTable i = some (es i)) ∧
      htableDestroy 5 exampleTable =
        some (mem, (List.range exampleTable.capacity.toNat).flatMap es) ∧
      ∀ a, mem.cells a = none :=
  htable_life exampleTable_reachable (exampleTable_next.trans_lt (by decide))

/-- Three entries, two of them in one bucket. -/
example : (bucket 5 exampleTable 1).map List.length = some 2 ∧
    (bucket 5 exampleTable 2).map List.length = some 1 := by decide +kernel

/-! ### Printing -/

/-- What is printed of an entry. -/
def HtableNode.lines (node : HtableNode K V) : List (Line K V) := [.key node.key, .value node.value]

/-- What is printed of a bucket. -/
def bucketLines (i : Nat) (es : List (HtableNode K V)) : List (Line K V) :=
  .bucket i :: if es.isEmpty then [.empty] else es.flatMap HtableNode.lines

theorem printEach_spec (h : Holds t L) (hi : i < t.capacity.toNat) {l r : List Nat} (hl : L i = l ++ r)
    {fuel : Nat} (hfuel : r.length < fuel) {aux : Node}
    (haux : Htable.readNext t (first i r) = some aux) :
    printEach t (.head i) fuel (first i r) aux = some ((entries t r).flatMap HtableNode.lines) := by
  induction r generalizing l fuel aux with
  | nil =>
    obtain ⟨n, rfl⟩ := Nat.exists_eq_succ_of_ne_zero (Nat.ne_of_gt hfuel)
    rw [first, printEach, if_pos rfl]
    rfl
  | cons a r ih =>
    rw [List.length_cons] at hfuel
    obtain ⟨n, rfl⟩ := Nat.exists_eq_succ_of_ne_zero (Nat.ne_of_gt (Nat.zero_lt_of_lt hfuel))
    obtain ⟨node, hnode⟩ := h.live i hi a (hl ▸ List.mem_append_right l List.mem_cons_self)
    have hload : t.mem.load (some a) = some node := hnode
    have hentries : entries t (a :: r) = node :: entries t r := List.filterMap_cons_some hnode
    have hl' : L i = (l ++ [a]) ++ r := by rw [hl, List.append_assoc]; rfl
    obtain ⟨aux', haux', hnext⟩ := h.readNext hi hl (fun b _ => Eq.refl (t.mem.cells b))
    obtain rfl := Option.some.inj (haux.symm.trans haux')
    obtain ⟨aux₁, haux₁, -⟩ := h.readNext hi hl' (fun b _ => Eq.refl (t.mem.cells b))
    rw [hnext a r rfl, first, printEach, if_neg Node.noConfusion, hload,
      Option.bind_eq_bind, Option.bind_some, haux₁, Option.bind_eq_bind, Option.bind_some,
      ih hl' (Nat.lt_of_succ_lt_succ hfuel) haux₁, hentries]
    rfl

theorem printBucket_spec (h : Holds t L) (hi : i < t.capacity.toNat) {fuel : Nat}
    (hfuel : (L i).length < fuel) :
    printBucket fuel t i = some (bucketLines i (entries t (L i))) := by
  rw [printBucket, bucketLines]
  cases hr : L i with
  | nil =>
    rw [if_pos ((h.isEmpty_iff hi).mpr hr)]
    rfl
  | cons a r =>
    obtain ⟨node, hnode⟩ := h.live i hi a (hr ▸ List.mem_cons_self)
    have hentries : entries t (a :: r) = node :: entries t r := List.filterMap_cons_some hnode
    have hne := mt (h.isEmpty_iff hi).mp (hr ▸ List.cons_ne_nil a r)
    have hl : L i = [] ++ L i := rfl
    obtain ⟨aux, haux, -⟩ := h.readNext hi hl (fun b _ => Eq.refl (t.mem.cells b))
    have haux' : Htable.readNext t (first i (L i)) = some aux := haux
    rw [if_neg hne, h.next_head hi]
    dsimp only
    rw [haux', Option.bind_eq_bind, Option.bind_some, printEach_spec h hi hl hfuel haux, hr, hentries]
    rfl

/-- **`htable_print` shows every entry in its bucket**, and the size 0. -/
theorem htable_prints (h : Reachable t) {fuel : Nat} (hfuel : t.mem.next < fuel) :
    ∃ es : Nat → List (HtableNode K V),
      (∀ i < t.capacity.toNat, bucket fuel t i = some (es i)) ∧
      htablePrint fuel t = some (.capacity t.capacity :: .size 0 ::
        (List.range t.capacity.toNat).flatMap (fun i => bucketLines i (es i))) := by
  obtain ⟨L, ⟨hholds, hsize⟩, -⟩ := h.full
  have hlt : ∀ i < t.capacity.toNat, (L i).length < fuel :=
    fun i hi => Nat.lt_of_le_of_lt (hholds.length_le hi) hfuel
  refine ⟨fun i => entries t (L i), fun i hi => hholds.bucket hi (hlt i hi), ?_⟩
  have hall : (List.range t.capacity.toNat).mapM (printBucket fuel t) =
      some ((List.range t.capacity.toNat).map (fun i => bucketLines i (entries t (L i)))) :=
    mapM_eq_some fun i hi => printBucket_spec hholds (List.mem_range.mp hi) (hlt i (List.mem_range.mp hi))
  rw [htablePrint, hall, hsize]
  rfl

/-- A table with an entry in it is printed. -/
theorem htable_prints_exampleTable :
    ∃ es : Nat → List (HtableNode Nat Nat),
      (∀ i < exampleTable.capacity.toNat, bucket 5 exampleTable i = some (es i)) ∧
      htablePrint 5 exampleTable = some (.capacity exampleTable.capacity :: .size 0 ::
        (List.range exampleTable.capacity.toNat).flatMap (fun i => bucketLines i (es i))) :=
  htable_prints exampleTable_reachable (exampleTable_next.trans_lt (by decide))

end DataStructures.Htable
