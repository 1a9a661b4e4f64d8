import DataStructures.Tree.Radix.Nodes

/-!
# Insertion is canonical

A tree is canonical when every node below the root has data or two children
(`Kept`).  Insertions keep this (`Grows.below_full`), and a canonical tree is
determined by what it stores: `eq_of_find`, by induction on the tree, because the
prefix of a kept node is the longest common prefix of the keys below it
(`prefix_of_kept`).  Hence `insertAll_perm`: the order of insertions does not
matter.
-/

namespace DataStructures.Radix

open Lib Outcomes RadixTreeNode

variable {V : Type}

/-! ### Canonical trees are determined by what they store -/

/-- **The prefix of a kept node is the longest common prefix of its keys.** -/
theorem prefix_of_kept {p q : List Byte} {d : Option V} {ch : UInt8 → RadixTreeNode V}
    (hg : Good (node (some q) d ch)) (hb : Below Kept (node (some q) d ch))
    (hk : Kept (node (some q) d ch))
    (hp : ∀ key, (under (node (some q) d ch) key).isSome → p <+: key) : p <+: q := by
  have hfind : ∀ s, (find (node (some q) d ch) s).isSome → p <+: q ++ s :=
    fun s hs => hp _ (by rwa [under_append])
  have hkey : ∀ i, ch i ≠ null → ∃ (c : Byte) (s : List Byte), c.val = i ∧ p <+: q ++ c :: s := by
    intro i hi
    obtain ⟨c, r, d', ch', rfl, hch⟩ := hg.child_of_ne hi
    obtain ⟨s, hs⟩ := exists_key (hg c.val).2 ((hb c.val).2.mono (fun _ => Full.alive))
      ((hb c.val).1 hi).alive
    refine ⟨c, r ++ s, rfl, hfind _ ?_⟩
    rw [find_append hch]
    exact hs
  rcases hk with hd | hc
  · have := hfind [] hd
    rwa [List.append_nil] at this
  · obtain ⟨i, j, hij, hi, hj⟩ := two_le_nodeChildren.mp hc
    obtain ⟨c, s, rfl, hs⟩ := hkey i hi
    obtain ⟨e, t, rfl, ht⟩ := hkey j hj
    exact prefix_of_fork hs ht (fun h => hij (congrArg Subtype.val h))

theorem prefix_of_under {p : List Byte} {d : Option V} {ch : UInt8 → RadixTreeNode V}
    {key : List Byte} (h : (under (node (some p) d ch) key).isSome) : p <+: key := by
  rw [under_node] at h
  obtain ⟨s, hs⟩ : ∃ s, key.dropPrefix? p = some s := by
    cases hd : key.dropPrefix? p with
    | none => rw [hd] at h; exact absurd h (by simp)
    | some s => exact ⟨s, rfl⟩
  exact ⟨s, (dropPrefix?_eq_some.mp hs).symm⟩

/-- What is stored in a slot is what the node stores for keys that start there. -/
theorem under_child_eq {p p' : Option (List Byte)} {d d' : Option V}
    {ch ch' : UInt8 → RadixTreeNode V} (hg : Good (node p d ch)) (hg' : Good (node p' d' ch'))
    (hf : find (node p d ch) = find (node p' d' ch')) (b : UInt8) : under (ch b) = under (ch' b) := by
  funext key
  cases key with
  | nil => rw [under_nil (hg b).1, under_nil (hg' b).1]
  | cons c r =>
    by_cases hc : c.val = b
    · subst hc
      have := congrFun hf (c :: r)
      rwa [find_cons, find_cons] at this
    · rw [under_of_ne (hg b).1 hc, under_of_ne (hg' b).1 hc]

/-- A slot that stores nothing is empty. -/
theorem null_of_under {t : RadixTreeNode V} {p : Option (List Byte)} {d : Option V}
    {ch : UInt8 → RadixTreeNode V} (hg : Good (node p d ch)) (hb : Below Kept (node p d ch))
    {b : UInt8} (ht : t = null) (hu : under (ch b) = under t) : ch b = null := by
  by_contra hne
  obtain ⟨c, q, d', ch', rfl, hch⟩ := hg.child_of_ne hne
  obtain ⟨key, hkey⟩ := exists_key (hg c.val).2 ((hb c.val).2.mono (fun _ => Full.alive))
    ((hb c.val).1 hne).alive
  have := under_append (c :: q) d' ch' key
  rw [← hch, hu, ht, under_null] at this
  rw [← this] at hkey
  exact absurd hkey (by simp)

/-- **Canonical trees that store the same are the same.**  By induction on the
tree, slot by slot. -/
theorem eq_of_find : ∀ {t t' : RadixTreeNode V}, Good t → Good t' → Below Kept t → Below Kept t' →
    t ≠ null → t' ≠ null → t.pfx = t'.pfx → find t = find t' → t = t' := by
  intro t
  induction t with
  | null => intro t' _ _ _ _ h; exact absurd rfl h
  | node p d ch ih =>
    intro t' hg hg' hb hb' _ hne' hp hf
    cases t' with
    | null => exact absurd rfl hne'
    | node p' d' ch' =>
      have hd : d = d' := congrFun hf []
      have hch : ch = ch' := by
        funext b
        have hu := under_child_eq hg hg' hf b
        by_cases h0 : ch b = null
        · rw [h0, null_of_under hg' hb' h0 hu.symm]
        by_cases h0' : ch' b = null
        · exact absurd (null_of_under hg hb h0' hu) h0
        obtain ⟨c, q, e, cch, hc, he⟩ := hg.child_of_ne h0
        obtain ⟨c', q', e', cch', hc', he'⟩ := hg'.child_of_ne h0'
        have hG := (hg b).2
        have hG' := (hg' b).2
        have hB := hb b
        have hB' := hb' b
        have hih := @ih b (ch' b) hG hG' hB.2 hB'.2 h0 h0'
        rw [he] at hG hB hu hih
        rw [he'] at hG' hB' hu hih
        have h1 : c' :: q' <+: c :: q := prefix_of_kept hG hB.2 (hB.1 nofun)
          (fun key hkey => prefix_of_under (hu ▸ hkey))
        have h2 : c :: q <+: c' :: q' := prefix_of_kept hG' hB'.2 (hB'.1 nofun)
          (fun key hkey => prefix_of_under (hu ▸ hkey))
        have hq := h2.eq_of_length (le_antisymm h2.length_le h1.length_le)
        rw [he, he']
        refine hih (by rw [pfx_node, pfx_node, hq]) (funext (fun key => ?_))
        have := congrFun hu (c :: q ++ key)
        rw [under_append] at this
        rw [this, hq, under_append]
      rw [show p = p' from hp, hd, hch]

/-! ### The order of insertions -/

/-- `radix_tree_insert` for each entry of a list: what the calls return, and the tree they lead to. -/
def insertAll : List (List Byte × V) → RadixTree V → Option (List Int × RadixTree V)
  | [], t => some ([], t)
  | (key, data) :: l, t =>
      match radixTreeInsert allOk t (some key) (some data) with
      | none => none
      | some (ret, t, _) => (insertAll l t).map (fun r => (ret :: r.1, r.2))

/-- What a list of entries stores, when no key occurs twice. -/
def entry (l : List (List Byte × V)) (m : List Byte → Option V) : List Byte → Option V :=
  l.foldl (fun m x => Function.update m x.1 (some x.2)) m

/-- **Inserting entries with new keys** succeeds, and leads to a canonical tree that stores them. -/
theorem insertAll_spec : ∀ (l : List (List Byte × V)) {t : RadixTree V}, IsRoot t → Below Kept t →
    (l.map Prod.fst).Nodup → (∀ x ∈ l, x.1 ≠ [] ∧ find t x.1 = none) →
    ∃ t', insertAll l t = some (List.replicate l.length 0, t') ∧ IsRoot t' ∧ Below Kept t' ∧
      find t' = entry l (find t) := by
  intro l
  induction l with
  | nil => intro t hr hb _ _; exact ⟨t, rfl, hr, hb, rfl⟩
  | cons x l ih =>
    intro t hr hb hn hx
    obtain ⟨hk, hnone⟩ := hx x (List.mem_cons_self ..)
    rw [List.map_cons, List.nodup_cons] at hn
    rcases insert_spec hr hk x.2 with ⟨t₁, h₁, hg⟩ | ⟨ret, _, _, hsome⟩
    · obtain ⟨t', h', hr', hb', hf'⟩ := ih (hg.isRoot hr) (hg.below_full le_rfl hb) hn.2 (fun y hy => by
        refine ⟨(hx y (List.mem_cons_of_mem _ hy)).1, ?_⟩
        rw [hg.find, Function.update_of_ne]
        · exact (hx y (List.mem_cons_of_mem _ hy)).2
        · exact fun he => hn.1 (he ▸ List.mem_map_of_mem hy))
      refine ⟨t', ?_, hr', hb', by rw [hf', hg.find]; rfl⟩
      rw [insertAll, h₁]
      show (insertAll l t₁).map _ = _
      rw [h']
      rfl
    · rw [hnone] at hsome
      exact absurd hsome (by simp)

/-- Entries with different keys may be stored in any order. -/
theorem entry_perm {l l' : List (List Byte × V)} (hp : l.Perm l') (hn : (l.map Prod.fst).Nodup)
    (m : List Byte → Option V) : entry l m = entry l' m := by
  refine hp.foldl_eq' (fun x hx y hy m => ?_) m
  by_cases hxy : x = y
  · rw [hxy]
  · refine Function.update_comm (fun he => hxy ?_) _ _ _
    exact List.inj_on_of_nodup_map hn hx hy he

theorem entry_eq_some : ∀ {l : List (List Byte × V)} {m : List Byte → Option V} {k : List Byte} {v : V},
    (l.map Prod.fst).Nodup →
    (entry l m k = some v ↔ (k, v) ∈ l ∨ k ∉ l.map Prod.fst ∧ m k = some v) := by
  intro l
  induction l with
  | nil => intro m k v _; simp [entry]
  | cons x l ih =>
    intro m k v hn
    obtain ⟨k₀, v₀⟩ := x
    rw [List.map_cons, List.nodup_cons] at hn
    rw [entry, List.foldl_cons]
    refine (ih hn.2).trans ?_
    rw [List.map_cons, List.mem_cons, List.mem_cons, Prod.mk.injEq]
    obtain rfl | hk := eq_or_ne k k₀
    · -- the first entry is for `k`, and no later one is
      have hnot : (k, v) ∉ l := fun h => hn.1 (List.mem_map.mpr ⟨_, h, rfl⟩)
      rw [Function.update_self, Option.some.injEq]
      simp [hnot, hn.1, eq_comm]
    · rw [Function.update_of_ne hk]
      simp [hk]

/-- **Insertion is order independent and canonical.**  Entries with different keys can be inserted
in any order: every call returns `0`, the tree is the same, and it finds these entries and no others. -/
theorem insertAll_perm (l l' : List (List Byte × V)) (hp : l.Perm l')
    (hn : (l.map Prod.fst).Nodup) (hk : ∀ x ∈ l, x.1 ≠ []) (t : RadixTree V) (o : Outcomes)
    (ht : radixTreeInit allOk = (some t, o)) :
    ∃ t', insertAll l t = some (List.replicate l.length 0, t') ∧
      insertAll l' t = some (List.replicate l.length 0, t') ∧ Below Kept t' ∧
      ∀ k v, k ≠ [] → (radixTreeLookup t' (some k) = some (some v) ↔ (k, v) ∈ l) := by
  rw [radixTreeInit_allOk, Prod.mk.injEq, Option.some.injEq] at ht
  rw [← ht.1]
  have hnone : ∀ key, find (node none none noChildren : RadixTree V) key = none := by
    intro key; cases key <;> rfl
  have hb := below_noChildren (V := V) Kept none none
  obtain ⟨t₁, h₁, hr₁, hb₁, hf₁⟩ := insertAll_spec l isRoot_init hb hn
    (fun x hx => ⟨hk x hx, hnone _⟩)
  obtain ⟨t₂, h₂, hr₂, hb₂, hf₂⟩ := insertAll_spec l' isRoot_init hb
    ((hp.map Prod.fst).nodup_iff.mp hn) (fun x hx => ⟨hk x (hp.mem_iff.mpr hx), hnone _⟩)
  have he : t₁ = t₂ := by
    refine eq_of_find hr₁.good hr₂.good hb₁ hb₂ hr₁.ne_null hr₂.ne_null
      (hr₁.pfx.trans hr₂.pfx.symm) ?_
    rw [hf₁, hf₂, entry_perm hp hn]
  rw [← he, ← hp.length_eq] at h₂
  refine ⟨t₁, h₁, h₂, hb₁, fun k v hne => ?_⟩
  rw [lookup_spec hr₁ hne, Option.some.injEq, hf₁, entry_eq_some hn, hnone]
  simp

theorem insertAll_perm_two :
    ∃ t', insertAll [([charA], 1), ([charA, charA], 2)] (node none none noChildren) =
        some ([0, 0], t') ∧
      insertAll [([charA, charA], 2), ([charA], 1)] (node none none noChildren) =
        some ([0, 0], t') ∧ Below Kept t' ∧
      ∀ k v, k ≠ [] → (radixTreeLookup t' (some k) = some (some v) ↔
        (k, v) ∈ [([charA], 1), ([charA, charA], 2)]) :=
  insertAll_perm _ _ (List.Perm.swap _ _ _) (by decide) (by decide) _ allOk rfl

end DataStructures.Radix
