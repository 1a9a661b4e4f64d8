import DataStructures.Htable.Model

/-!
# What a hash table holds

`Holds t L`: the list of bucket `i` consists of the entries at the addresses `L i`, all of
them allocated.  Creating a table, inserting and deleting are described on `L`.
-/

namespace DataStructures.Htable

open Lib Kdlist

variable {K V : Type} {t t' : HtableT K V} {L : Nat → List Nat} {i j a : Nat} {key : K} {value : V}

/-- The entries of bucket `i` are those at the addresses `L i`. -/
structure Holds (t : HtableT K V) (L : Nat → List Nat) : Prop where
  rings : Rings t.links {i | i < t.capacity.toNat} Node.head (fun i => (L i).map Node.entry)
  live : ∀ i < t.capacity.toNat, ∀ a ∈ L i, ∃ node, t.mem.cells a = some node

/-- The entries at some addresses. -/
def entries (t : HtableT K V) (as : List Nat) : List (HtableNode K V) := as.filterMap t.mem.cells

/-- The entry at `a` has a key that compares equal. -/
def HtableT.equal (t : HtableT K V) (key : K) (a : Nat) : Bool :=
  (t.mem.cells a).any (fun node => t.callbacks.cmp key node.key == 0)

/-- The list node that comes first. -/
def first (i : Nat) : List Nat → Node
  | [] => .head i
  | a :: _ => .entry a

theorem map_update (L : Nat → List Nat) (i : Nat) (xs : List Nat) :
    (fun j => (Function.update L i xs j).map Node.entry) =
      Function.update (fun j => (L j).map Node.entry) i (xs.map Node.entry) :=
  funext (Function.apply_update (fun _ => List.map Node.entry) L i xs)

namespace Holds

theorem nodup (h : Holds t L) (hi : i < t.capacity.toNat) : (L i).Nodup :=
  (List.nodup_cons.mp (h.rings.ring i hi).nodup).2.of_map _

theorem disjoint (h : Holds t L) (hi : i < t.capacity.toNat) (hj : j < t.capacity.toNat)
    (hij : i ≠ j) (ha : a ∈ L i) : a ∉ L j := by
  intro ha'
  exact h.rings.disjoint i hi j hj hij (List.mem_cons_of_mem _ (List.mem_map_of_mem ha))
    (List.mem_cons_of_mem _ (List.mem_map_of_mem ha'))

/-- The loops have enough fuel. -/
theorem length_le (h : Holds t L) (hi : i < t.capacity.toNat) : (L i).length ≤ t.mem.next := by
  have hsub : L i ⊆ List.range t.mem.next := by
    intro a ha
    obtain ⟨node, hn⟩ := h.live i hi a ha
    exact List.mem_range.mpr (Memory.lt_next hn)
  have hle := ((h.nodup hi).subperm hsub).length_le
  rwa [List.length_range] at hle

/-- The node behind an entry. -/
theorem next_entry (h : Holds t L) (hi : i < t.capacity.toNat) {l r : List Nat}
    (hl : L i = l ++ a :: r) : (t.links (.entry a)).next = first i r := by
  have hring := h.rings.ring i hi
  obtain ⟨Q, hQ⟩ : ∃ Q, r.map Node.entry ++ [Node.head i] = first i r :: Q := by
    cases r with
    | nil => exact ⟨[], rfl⟩
    | cons b r => exact ⟨r.map Node.entry ++ [Node.head i], rfl⟩
  refine (hring.link_of_split (P := Node.head i :: l.map Node.entry) (b := first i r) (Q := Q) ?_).1
  rw [hl, List.map_append, List.map_cons, List.cons_append, List.append_assoc, List.cons_append,
    hQ, List.cons_append]

/-- The node behind the head of a bucket. -/
theorem next_head (h : Holds t L) (hi : i < t.capacity.toNat) :
    (t.links (.head i)).next = first i (L i) := by
  have hring := h.rings.ring i hi
  obtain ⟨Q, hQ⟩ : ∃ Q, (L i).map Node.entry ++ [Node.head i] = first i (L i) :: Q := by
    cases L i with
    | nil => exact ⟨[], rfl⟩
    | cons b r => exact ⟨r.map Node.entry ++ [Node.head i], rfl⟩
  refine (hring.link_of_split (P := []) (b := first i (L i)) (Q := Q) ?_).1
  rw [List.cons_append, hQ, List.nil_append]

theorem isEmpty_iff (h : Holds t L) (hi : i < t.capacity.toNat) :
    kdlistIsEmpty t.links (.head i) = true ↔ L i = [] := by
  rw [kdlistIsEmpty_iff (h.rings.ring i hi), List.map_eq_nil_iff]

/-- Reading a bucket gives its entries in order. -/
theorem bucket (h : Holds t L) (hi : i < t.capacity.toNat) {fuel : Nat}
    (hfuel : (L i).length < fuel) : Htable.bucket fuel t i = some (entries t (L i)) := by
  have hload : ∀ as : List Nat, (∀ a ∈ as, ∃ node, t.mem.cells a = some node) →
      (as.map Node.entry).mapM (readNode t.mem) = some (entries t as) := by
    intro as
    induction as with
    | nil => exact fun _ => rfl
    | cons a as ih =>
      intro has
      obtain ⟨node, hn⟩ := has a List.mem_cons_self
      have hrest := ih (fun b hb => has b (List.mem_cons_of_mem _ hb))
      have hload : readNode t.mem (.entry a) = some node := hn
      have hcons : entries t (a :: as) = node :: entries t as := List.filterMap_cons_some hn
      rw [List.map_cons, List.mapM_cons, hrest, hload, hcons]
      rfl
  rw [Htable.bucket, kdlistForEach_ring (h.rings.ring i hi) (by rw [List.length_map]; omega)]
  exact hload (L i) (h.live i hi)

end Holds

/-! ### Creating -/

/-- The heads of all buckets, one after the other. -/
theorem heads_rings (links : Lib.Store Node) (n : Nat) :
    Rings ((List.range n).foldl (fun m i => kdlistHeadInit m (.head i)) links) {i | i < n} Node.head
      (fun _ => []) := by
  induction n with
  | zero => exact ⟨fun i hi => absurd hi (Nat.not_lt_zero i), fun i hi => absurd hi (Nat.not_lt_zero i)⟩
  | succ n ih =>
    rw [List.range_succ, List.foldl_append, List.foldl_cons, List.foldl_nil]
    have hnew := kdlistHeadInit_rings (i := n) ih (Nat.lt_irrefl n) (fun j hj hm => by
      rw [List.mem_singleton] at hm
      exact Nat.ne_of_gt hj (Node.head.inj hm))
    rw [Function.update_eq_self_iff.mpr rfl] at hnew
    have hset : {i | i < n + 1} = insert n {i | i < n} := by
      ext i
      simp only [Set.mem_ofPred_eq, Set.mem_insert_iff]
      omega
    rw [hset]
    exact hnew

/-- **A new table is empty.** -/
theorem Created.holds (h : Created t) : Holds t (fun _ => []) ∧ t.size = 0 := by
  obtain ⟨capacity, callbacks, outcomes, links, hc⟩ := h
  cases callbacks with
  | none => exact absurd (Option.some.inj hc) (by simp)
  | some callbacks =>
    rw [htableCreate] at hc
    split at hc
    · exact absurd hc (by simp)
    · split at hc
      · exact absurd hc (by simp)
      · split at hc
        · exact absurd hc (by simp)
        · obtain rfl := Option.some.inj (Option.some.inj hc)
          exact ⟨⟨heads_rings links _, fun _ _ a ha => absurd ha List.not_mem_nil⟩, rfl⟩

/-! ### Inserting -/

/-- The three allocations of an insertion succeed. -/
def allocates (outcomes : Outcomes) : Bool :=
  outcomes.first && outcomes.rest.first && outcomes.rest.rest.first

section Field

variable {m : Memory (HtableNode K V)} {cells : Nat → Option (HtableNode K V)}
  {node : HtableNode K V}

/-- The allocation for a field fails: the entry is freed. -/
theorem field_fail (hm : m.cells = Function.update cells a (some node)) (ha : cells a = none)
    (h : m.outcomes.first = false) :
    m.ask = (false, m.ask.2) ∧ ∃ m', m.ask.2.free (some a) = some m' ∧ m'.cells = cells := by
  have hcell : m.ask.2.cells a = some node := (congrFun hm a).trans (Function.update_self ..)
  obtain ⟨m', hm', hnone, honly⟩ := Memory.free_spec hcell
  refine ⟨by rw [Memory.ask, h], m', hm', ?_⟩
  rw [honly.cells_eq hnone, Memory.ask, hm, Function.update_idem]
  exact Function.update_eq_self_iff.mpr ha.symm

/-- The allocation for a field succeeds: the field is written. -/
theorem field_ok (hm : m.cells = Function.update cells a (some node))
    (h : m.outcomes.first = true) (new : HtableNode K V) :
    m.ask = (true, m.ask.2) ∧ ∃ m', m.ask.2.store (some a) new = some m' ∧
      m'.cells = Function.update cells a (some new) ∧ m'.outcomes = m.outcomes.rest := by
  have hcell : m.ask.2.cells a = some node := (congrFun hm a).trans (Function.update_self ..)
  obtain ⟨m', hm', hnew, honly⟩ := Memory.store_spec hcell new
  refine ⟨by rw [Memory.ask, h], m', hm', ?_, honly.outcomes⟩
  rw [honly.cells_eq hnew, Memory.ask, hm, Function.update_idem]

end Field

/-- Creating an entry gives it its fields, or leaves the memory as it was. -/
theorem htableNodeCreate_spec (mem : Memory (HtableNode K V)) (callbacks : Callbacks K V) (key : K)
    (value : V) :
    (allocates mem.outcomes = true ∧ ∃ mem',
      htableNodeCreate mem callbacks key value = some (some mem.next, mem') ∧
      mem'.cells = Function.update mem.cells mem.next
        (some ⟨callbacks.allocKey key, callbacks.allocValue value⟩)) ∨
    (allocates mem.outcomes = false ∧ ∃ mem',
      htableNodeCreate mem callbacks key value = some (none, mem') ∧ mem'.cells = mem.cells) := by
  have hfresh : mem.cells mem.next = none := mem.fresh _ (Nat.le_refl _)
  cases h₁ : mem.outcomes.first with
  | false =>
    refine Or.inr ⟨by rw [allocates, h₁]; rfl, mem.ask.2, ?_, rfl⟩
    rw [htableNodeCreate, Memory.malloc_fail h₁]
  | true =>
    obtain ⟨m₁, hm₁, hcell₁, hrest₁, -, hout₁⟩ :=
      Memory.malloc_ok h₁ (⟨key, value⟩ : HtableNode K V)
    have hcells₁ : m₁.cells = Function.update mem.cells mem.next (some ⟨key, value⟩) :=
      Function.eq_update_iff.mpr ⟨hcell₁, hrest₁⟩
    rw [htableNodeCreate, hm₁]
    dsimp only
    cases h₂ : mem.outcomes.rest.first with
    | false =>
      obtain ⟨hask, m₂, hm₂, hcells₂⟩ := field_fail hcells₁ hfresh (by rw [hout₁, h₂])
      rw [hask]
      dsimp only
      exact Or.inr ⟨by rw [allocates, h₁, h₂]; rfl, m₂, by rw [hm₂]; rfl, hcells₂⟩
    | true =>
      obtain ⟨hask, m₂, hm₂, hcells₂, hout₂⟩ :=
        field_ok hcells₁ (by rw [hout₁, h₂]) ⟨callbacks.allocKey key, value⟩
      rw [hout₁] at hout₂
      rw [hask]
      dsimp only
      rw [hm₂, Option.bind_eq_bind, Option.bind_some]
      cases h₃ : mem.outcomes.rest.rest.first with
      | false =>
        obtain ⟨hask₂, m₃, hm₃, hcells₃⟩ := field_fail hcells₂ hfresh (by rw [hout₂, h₃])
        rw [hask₂]
        dsimp only
        exact Or.inr ⟨by rw [allocates, h₁, h₂, h₃]; rfl, m₃, by rw [hm₃]; rfl, hcells₃⟩
      | true =>
        obtain ⟨hask₂, m₃, hm₃, hcells₃, -⟩ := field_ok hcells₂ (by rw [hout₂, h₃])
          ⟨callbacks.allocKey key, callbacks.allocValue value⟩
        rw [hask₂]
        dsimp only
        exact Or.inl ⟨by rw [allocates, h₁, h₂, h₃]; rfl, m₃, by rw [hm₃]; rfl, hcells₃⟩

/-- The insertion stores an entry in a table of this capacity: its arguments are not NULL,
the capacity is not 0, the hash is below it and no allocation fails. -/
def Stores (capacity : BitVec 32) (callbacks : Callbacks K V) (key : Option K) (value : Option V)
    (outcomes : Outcomes) : Prop :=
  ∃ k v, key = some k ∧ value = some v ∧ capacity ≠ 0 ∧ callbacks.hash k < capacity ∧
    allocates outcomes = true

/-- What calls leave as it is. -/
structure Same (t t' : HtableT K V) : Prop where
  capacity : t'.capacity = t.capacity
  size : t'.size = t.size
  callbacks : t'.callbacks = t.callbacks

theorem Same.refl (t : HtableT K V) : Same t t := ⟨rfl, rfl, rfl⟩

/-- A table whose entries have not changed holds the same. -/
theorem Holds.congr (h : Holds t L) (hcap : t'.capacity = t.capacity) (hlinks : t'.links = t.links)
    (hcells : t'.mem.cells = t.mem.cells) : Holds t' L := by
  refine ⟨?_, ?_⟩
  · rw [hlinks, hcap]
    exact h.rings
  · rw [hcells, hcap]
    exact h.live

end DataStructures.Htable
