import DataStructures.Htable.Contents

/-!
# `htable_insert` and `htable_delete` on what a table holds

An insertion appends one entry to its bucket or changes nothing.  A deletion takes out of
its bucket all entries whose keys compare equal and never returns 0.
-/

namespace DataStructures.Htable

open Lib Kdlist

variable {K V : Type} {t t' : HtableT K V} {L : Nat → List Nat} {as : List Nat}
  {i j a : Nat} {key : K} {value : V}

/-- Every entry is in the bucket of its key's hash. -/
def Placed (t : HtableT K V) (L : Nat → List Nat) : Prop :=
  ∀ i < t.capacity.toNat, ∀ a ∈ L i, ∀ node, t.mem.cells a = some node →
    (t.callbacks.hash node.key).toNat = i

/-- The copies that `alloc_key` makes hash as the originals. -/
def CopiesHash (callbacks : Callbacks K V) : Prop :=
  ∀ k, callbacks.hash (callbacks.allocKey k) = callbacks.hash k

/-! ### Inserting -/

theorem mem_update_append {b : Nat} :
    b ∈ Function.update L i (L i ++ [a]) j ↔ b ∈ L j ∨ j = i ∧ b = a := by
  obtain rfl | hji := eq_or_ne j i
  · rw [Function.update_self, List.mem_append, List.mem_singleton]
    exact or_congr_right (and_iff_right rfl).symm
  · rw [Function.update_of_ne hji]
    exact ⟨Or.inl, fun hm => hm.resolve_right (fun he => hji he.1)⟩

theorem Holds.not_mem_of_none (h : Holds t L) (ha : t.mem.cells a = none)
    (hi : i < t.capacity.toNat) : a ∉ L i := by
  intro hm
  obtain ⟨n, hn⟩ := h.live i hi a hm
  rw [ha] at hn
  exact nomatch hn

/-- Linking a new entry at the end of bucket `i`. -/
theorem Holds.pushTail (h : Holds t L) (hi : i < t.capacity.toNat) {node : HtableNode K V}
    {mem : Memory (HtableNode K V)} (ha : t.mem.cells a = none)
    (hcells : mem.cells = Function.update t.mem.cells a (some node)) :
    Holds { t with mem := mem, links := kdlistPushTail t.links (.head i) (.entry a) }
      (Function.update L i (L i ++ [a])) := by
  refine ⟨?_, ?_⟩
  · rw [map_update, List.map_append]
    refine kdlistPushTail_rings (i := i) h.rings hi ?_
    intro j hj hm
    obtain hm | hm := List.mem_cons.mp hm
    · exact Node.noConfusion hm
    · obtain ⟨b, hb, he⟩ := List.mem_map.mp hm
      exact h.not_mem_of_none ha hj (Node.entry.inj he ▸ hb)
  · intro j hj b hb
    dsimp only
    rw [hcells]
    obtain rfl | hba := eq_or_ne b a
    · exact ⟨node, Function.update_self ..⟩
    · rw [Function.update_of_ne hba]
      exact h.live j hj b ((mem_update_append.mp hb).resolve_right (fun he => hba he.2))

/-- A copy that hashes as its original is in the bucket of its hash. -/
theorem Placed.insert (hp : Placed t L) (h : Holds t L) (hcopy : CopiesHash t.callbacks)
    (hsame : Same t t') (ha : t.mem.cells a = none)
    (hcells : t'.mem.cells = Function.update t.mem.cells a
      (some ⟨t.callbacks.allocKey key, value⟩)) :
    Placed t' (Function.update L (t.callbacks.hash key).toNat
      (L (t.callbacks.hash key).toNat ++ [a])) := by
  intro i hi b hb node hn
  rw [hsame.capacity] at hi
  rw [hsame.callbacks]
  rw [hcells] at hn
  obtain rfl | hba := eq_or_ne b a
  · rw [Function.update_self] at hn
    obtain rfl := Option.some.inj hn
    obtain ⟨rfl, -⟩ := (mem_update_append.mp hb).resolve_left (h.not_mem_of_none ha hi)
    exact congrArg BitVec.toNat (hcopy key)
  · rw [Function.update_of_ne hba] at hn
    exact hp i hi b ((mem_update_append.mp hb).resolve_right (fun he => hba he.2)) node hn

/-- **An insertion appends an entry to its bucket, or returns a negative value and changes
no entry.** -/
theorem htableInsert_spec (h : Holds t L) (hsize : t.size = 0) (key : Option K)
    (value : Option V) :
    (∃ k v a t', key = some k ∧ value = some v ∧
      Stores t.capacity t.callbacks key value t.mem.outcomes ∧
      htableInsert t key value = some (0, t') ∧ Same t t' ∧ t.mem.cells a = none ∧
      t'.mem.cells = Function.update t.mem.cells a
        (some ⟨t.callbacks.allocKey k, t.callbacks.allocValue v⟩) ∧
      Holds t' (Function.update L (t.callbacks.hash k).toNat
        (L (t.callbacks.hash k).toNat ++ [a]))) ∨
    (¬ Stores t.capacity t.callbacks key value t.mem.outcomes ∧
      ∃ rv t', htableInsert t key value = some (rv, t') ∧ rv < 0 ∧ Same t t' ∧
        t'.mem.cells = t.mem.cells ∧ Holds t' L) := by
  cases key with
  | none =>
    refine Or.inr ⟨?_, -1, t, rfl, by decide, .refl t, rfl, h⟩
    rintro ⟨k, v, hk, -⟩
    exact nomatch hk
  | some k =>
    cases value with
    | none =>
      refine Or.inr ⟨?_, -1, t, rfl, by decide, .refl t, rfl, h⟩
      rintro ⟨k, v, -, hv, -⟩
      exact nomatch hv
    | some v =>
      by_cases hcap : t.capacity = 0
      · refine Or.inr ⟨?_, -2, t, ?_, by decide, .refl t, rfl, h⟩
        · rintro ⟨k, v, -, -, hne, -⟩
          exact hne hcap
        · rw [htableInsert, if_pos (hsize.trans hcap.symm)]
      · have hne : t.size ≠ t.capacity := fun he => hcap (he.symm.trans hsize)
        by_cases hhash : t.callbacks.hash k < t.capacity
        · obtain ⟨halloc, mem, hcreate, hcells⟩ | ⟨halloc, mem, hcreate, hcells⟩ :=
            htableNodeCreate_spec t.mem t.callbacks k v
          · have hnone := t.mem.fresh _ (Nat.le_refl t.mem.next)
            have hpush := h.pushTail hhash hnone hcells
            refine Or.inl ⟨k, v, t.mem.next, { t with
                mem := mem
                links := kdlistPushTail t.links (.head (t.callbacks.hash k).toNat) (.entry t.mem.next) },
              rfl, rfl, ⟨k, v, rfl, rfl, hcap, hhash, halloc⟩, ?_, ⟨rfl, rfl, rfl⟩, hnone, hcells, hpush⟩
            rw [htableInsert, if_neg hne, if_neg (BitVec.not_le.mpr hhash), hcreate]
            rfl
          · refine Or.inr ⟨?_, -4, { t with mem := mem }, ?_, by decide, ⟨rfl, rfl, rfl⟩, hcells,
              h.congr rfl rfl hcells⟩
            · rintro ⟨-, -, -, -, -, -, hall⟩
              rw [halloc] at hall
              exact Bool.noConfusion hall
            · rw [htableInsert, if_neg hne, if_neg (BitVec.not_le.mpr hhash), hcreate]
              rfl
        · refine Or.inr ⟨?_, -3, t, ?_, by decide, .refl t, rfl, h⟩
          · rintro ⟨k', v', hk, -, -, hlt, -⟩
            obtain rfl := Option.some.inj hk
            exact hhash hlt
          · rw [htableInsert, if_neg hne, if_pos (BitVec.not_lt.mp hhash)]

/-! ### Deleting -/

theorem mem_update_filter {b : Nat} {p : Nat → Bool} :
    b ∈ Function.update L i ((L i).filter p) j ↔ b ∈ L j ∧ (j = i → p b = true) := by
  obtain rfl | hji := eq_or_ne j i
  · rw [Function.update_self, List.mem_filter]
    exact and_congr_right (fun _ => ⟨fun hp _ => hp, fun hp => hp rfl⟩)
  · rw [Function.update_of_ne hji]
    exact ⟨fun hm => ⟨hm, fun he => absurd he hji⟩, fun hm => hm.1⟩

theorem unlink_eq (m : Lib.Store Node) (it : Node) :
    unlink m it = join m (m it).prev (m it).next := by
  have hp : (setPrev m (m it).next (m it).prev it).prev = (m it).prev := by
    rw [setPrev_prev]
    split <;> rfl
  refine store_ext ?_ ?_
  · intro x
    simp only [unlink, hp, setNext_next, setPrev_next, join]
  · intro x
    simp only [unlink, setNext_prev, setPrev_prev, join]

/-- An entry is in its bucket once. -/
theorem Holds.not_mem_others (h : Holds t L) (hi : i < t.capacity.toNat) {l r : List Nat}
    (hl : L i = l ++ a :: r) : a ∉ l ++ r := by
  have hn := h.nodup hi
  rw [hl, List.nodup_middle, List.nodup_cons] at hn
  exact hn.1

/-- Taking an entry out of bucket `i` and freeing it. -/
theorem Holds.unlink (h : Holds t L) (hi : i < t.capacity.toNat) {l r : List Nat}
    (hl : L i = l ++ a :: r) {mem : Memory (HtableNode K V)}
    (hcells : mem.cells = Function.update t.mem.cells a none) :
    Holds { t with links := Htable.unlink t.links (.entry a), mem := mem }
      (Function.update L i (l ++ r)) := by
  have ha : a ∈ L i := hl ▸ List.mem_append_right l List.mem_cons_self
  have hnodup := h.not_mem_others hi hl
  refine ⟨?_, ?_⟩
  · dsimp only
    rw [map_update, unlink_eq, List.map_append]
    refine h.rings.unlink (i := i) hi ?_
    rw [hl, List.map_append, List.map_cons]
  · intro j hj b hb
    dsimp only
    rw [hcells]
    obtain rfl | hji := eq_or_ne j i
    · rw [Function.update_self] at hb
      have hba : b ≠ a := by
        rintro rfl
        exact hnodup hb
      rw [Function.update_of_ne hba]
      refine h.live j hj b ?_
      rw [hl, List.mem_append, List.mem_cons]
      exact (List.mem_append.mp hb).imp id Or.inr
    · rw [Function.update_of_ne hji] at hb
      have hba : b ≠ a := by
        rintro rfl
        exact h.disjoint hi hj (Ne.symm hji) ha hb
      rw [Function.update_of_ne hba]
      exact h.live j hj b hb

/-- What the comparison says of an entry that is there. -/
theorem equal_of_cells {node : HtableNode K V} {a : Nat} (key : K) (h : t.mem.cells a = some node) :
    t.equal key a = (t.callbacks.cmp key node.key == 0) := by
  rw [HtableT.equal, h]
  rfl

/-- The comparison reads the entry only. -/
theorem equal_congr {a : Nat} (key : K) (hc : t'.callbacks = t.callbacks)
    (h : t'.mem.cells a = t.mem.cells a) : t'.equal key a = t.equal key a := by
  rw [HtableT.equal, HtableT.equal, hc, h]

theorem filter_equal_congr {as : List Nat} (key : K) (hc : t'.callbacks = t.callbacks)
    (h : ∀ a ∈ as, t'.mem.cells a = t.mem.cells a) :
    as.filter (fun a => ! t'.equal key a) = as.filter (fun a => ! t.equal key a) := by
  refine List.filter_congr ?_
  intro a ha
  rw [equal_congr key hc (h a ha)]

/-- **The loop takes out of the rest of the list the entries whose keys compare equal**, and
leaves the other entries as they are. -/
theorem deleteEach_spec (key : K) (hi : i < t.capacity.toNat) (fuel : Nat) (l r : List Nat)
    (h : Holds t L) (hl : L i = l ++ r) (hfuel : r.length < fuel) :
    ∃ t', deleteEach key (.head i) fuel t (first i r) (t.links (first i r)).next = some t' ∧
      Same t t' ∧ Holds t' (Function.update L i (l ++ r.filter (fun a => ! t.equal key a))) ∧
      ∀ a, (a ∈ r → t.equal key a = false) → t'.mem.cells a = t.mem.cells a := by
  induction r generalizing t L l fuel with
  | nil =>
    obtain ⟨n, rfl⟩ := Nat.exists_eq_succ_of_ne_zero (Nat.ne_of_gt hfuel)
    refine ⟨t, if_pos rfl, .refl t, ?_, fun a _ => rfl⟩
    rw [List.filter_nil, ← hl, Function.update_eq_self]
    exact h
  | cons a r ih =>
    rw [List.length_cons] at hfuel
    obtain ⟨n, rfl⟩ := Nat.exists_eq_succ_of_ne_zero (Nat.ne_of_gt (Nat.zero_lt_of_lt hfuel))
    obtain ⟨node, hnode⟩ := h.live i hi a (hl ▸ List.mem_append_right l List.mem_cons_self)
    have hload : t.mem.load (some a) = some node := hnode
    have hequal := equal_of_cells key hnode
    have hnext : (t.links (first i (a :: r))).next = first i r := h.next_entry hi hl
    rw [hnext, first, deleteEach, if_neg Node.noConfusion]
    dsimp only
    rw [hload, Option.bind_eq_bind, Option.bind_some]
    by_cases hcmp : t.callbacks.cmp key node.key = 0
    · rw [hcmp] at hequal
      obtain ⟨mem, hfree, hcell, honly⟩ := Memory.free_spec hnode
      have hcells := honly.cells_eq hcell
      have hout := h.unlink hi hl hcells
      rw [if_pos hcmp, hfree, Option.bind_eq_bind, Option.bind_some]
      obtain ⟨t', hr, hsame, hholds, hkeep⟩ :=
        ih (t := { t with links := Htable.unlink t.links (.entry a), mem := mem }) hi n l hout
          (Function.update_self ..) (by omega)
      have hcell : ∀ b, b ≠ a → mem.cells b = t.mem.cells b := by
        intro b hba
        rw [hcells, Function.update_of_ne hba]
      have hfilter : r.filter (fun b => ! HtableT.equal
          { t with links := Htable.unlink t.links (.entry a), mem := mem } key b) =
            r.filter (fun b => ! t.equal key b) :=
        filter_equal_congr key rfl (fun b hb => hcell b (fun he =>
          h.not_mem_others hi hl (List.mem_append_right l (he ▸ hb))))
      refine ⟨t', hr, ⟨hsame.capacity, hsame.size, hsame.callbacks⟩, ?_, ?_⟩
      · rw [Function.update_idem, hfilter] at hholds
        rw [List.filter_cons_of_neg (by rw [hequal]; decide)]
        exact hholds
      · intro b hb
        have hba : b ≠ a := by
          rintro rfl
          rw [hb List.mem_cons_self] at hequal
          exact absurd hequal (by decide)
        refine (hkeep b ?_).trans (hcell b hba)
        intro hbr
        have hkept : HtableT.equal
            { t with links := Htable.unlink t.links (.entry a), mem := mem } key b = t.equal key b :=
          equal_congr key rfl (hcell b hba)
        exact hkept.trans (hb (List.mem_cons_of_mem _ hbr))
    · have hkeepa : t.equal key a = false := hequal.trans (beq_eq_false_iff_ne.mpr hcmp)
      rw [if_neg hcmp]
      obtain ⟨t', hr, hsame, hholds, hkeep⟩ :=
        ih hi n (l ++ [a]) h (by rw [hl, List.append_assoc]; rfl) (by omega)
      refine ⟨t', hr, hsame, ?_, ?_⟩
      · rw [List.filter_cons_of_pos (by rw [hkeepa]; rfl)]
        rw [List.append_assoc] at hholds
        exact hholds
      · intro b hb
        exact hkeep b (fun hbr => hb (List.mem_cons_of_mem _ hbr))

/-- **A deletion takes all equal keys out of the bucket of the hash, keeps the others in
their order, and never returns 0.** -/
theorem htableDelete_spec (h : Holds t L) (key : K) (hi : t.callbacks.hash key < t.capacity)
    {fuel : Nat} (hfuel : t.mem.next < fuel) :
    ∃ rv t', htableDelete fuel t (some key) = some (rv, t') ∧ rv < 0 ∧ Same t t' ∧
      Holds t' (Function.update L (t.callbacks.hash key).toNat
        ((L (t.callbacks.hash key).toNat).filter (fun a => ! t.equal key a))) ∧
      ∀ a, (a ∈ L (t.callbacks.hash key).toNat → t.equal key a = false) →
        t'.mem.cells a = t.mem.cells a := by
  have hi' : (t.callbacks.hash key).toNat < t.capacity.toNat := hi
  by_cases hempty : L (t.callbacks.hash key).toNat = []
  · refine ⟨-3, t, ?_, by decide, .refl t, ?_, fun _ _ => rfl⟩
    · rw [htableDelete, if_neg (BitVec.not_le.mpr hi), if_pos ((h.isEmpty_iff hi').mpr hempty)]
    · rw [hempty, List.filter_nil, ← hempty, Function.update_eq_self]
      exact h
  · have hlen := h.length_le hi'
    obtain ⟨t', hr, hsame, hholds, hkeep⟩ := deleteEach_spec key hi' fuel [] _ h rfl (by omega)
    refine ⟨-4, t', ?_, by decide, hsame, hholds, hkeep⟩
    rw [htableDelete, if_neg (BitVec.not_le.mpr hi),
      if_neg (fun he => hempty ((h.isEmpty_iff hi').mp he))]
    dsimp only
    rw [h.next_head hi', hr]
    rfl

/-- What is left keeps its place. -/
theorem Placed.delete (hp : Placed t L) (h : Holds t L) (hi : i < t.capacity.toNat)
    (hsame : Same t t')
    (hkeep : ∀ a, (a ∈ L i → t.equal key a = false) → t'.mem.cells a = t.mem.cells a) :
    Placed t' (Function.update L i ((L i).filter (fun a => ! t.equal key a))) := by
  intro j hj b hb node hn
  obtain ⟨hb, hequal⟩ := mem_update_filter.mp hb
  rw [hsame.capacity] at hj
  rw [hsame.callbacks]
  rw [hkeep b ?_] at hn
  · exact hp j hj b hb node hn
  · intro hbi
    by_cases hji : j = i
    · exact Bool.not_eq_true' _ ▸ hequal hji
    · exact absurd hbi (h.disjoint hj hi hji hb)

/-- The entries that are left, as entries. -/
theorem entries_filter (hlive : ∀ a ∈ as, ∃ node, t.mem.cells a = some node)
    (hkeep : ∀ a ∈ as, t.equal key a = false → t'.mem.cells a = t.mem.cells a) :
    entries t' (as.filter (fun a => ! t.equal key a)) =
      (entries t as).filter (fun node => t.callbacks.cmp key node.key != 0) := by
  induction as with
  | nil => rfl
  | cons a as ih =>
    have hrest := ih (fun b hb => hlive b (List.mem_cons_of_mem _ hb))
      (fun b hb => hkeep b (List.mem_cons_of_mem _ hb))
    obtain ⟨node, hnode⟩ := hlive a List.mem_cons_self
    have hequal := equal_of_cells key hnode
    have hcons : entries t (a :: as) = node :: entries t as := List.filterMap_cons_some hnode
    rw [hcons]
    by_cases hcmp : t.callbacks.cmp key node.key = 0
    · rw [List.filter_cons_of_neg (by rw [hequal, hcmp]; decide),
        List.filter_cons_of_neg (by rw [hcmp]; decide)]
      exact hrest
    · have hne : t.equal key a = false := hequal.trans (beq_eq_false_iff_ne.mpr hcmp)
      have hcell := (hkeep a List.mem_cons_self hne).trans hnode
      rw [List.filter_cons_of_pos (by rw [hne]; rfl),
        List.filter_cons_of_pos (by exact bne_iff_ne.mpr hcmp), entries, List.filterMap_cons_some hcell]
      exact congrArg (node :: ·) hrest

theorem htableDelete_of_le {fuel : Nat} (h : t.capacity ≤ t.callbacks.hash key) :
    htableDelete fuel t (some key) = some (-2, t) := by
  rw [htableDelete, if_pos h]

end DataStructures.Htable
