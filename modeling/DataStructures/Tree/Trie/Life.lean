import DataStructures.Tree.Trie.Live

/-!
# The life of a trie

`Owns m₀ m t`: since the memory was `m₀` the nodes of the tree `t` have been made, and nothing else
has changed.  An insertion cuts no link and changes only what it leaves reachable
(`trieInsertFrom_owns`); a deletion destroys all that it makes unreachable (`trieDelete_owns`).

Hence `trie_life`: **a trie leaks no node**, whatever the allocations answer, and destroying it
gives the memory back as it was before the root was created.
-/

namespace DataStructures.Trie

open Lib Memory Trie.Tree

variable {m m' m'' m₀ : Heap} {t t' : Tree} {w : Word} {root p : Ptr} {a b x n : Nat}
  {node : TrieNode} {c : Fin childrenNo}

/-! ### Links -/

/-- From `m` to `m'` no link has been cut. -/
def KeepsLinks (m m' : Heap) : Prop :=
  ∀ a node, m.cells a = some node →
    ∃ node', m'.cells a = some node' ∧ ∀ i b, node.children i = some b → node'.children i = some b

theorem KeepsLinks.trans (h : KeepsLinks m m') (h' : KeepsLinks m' m'') : KeepsLinks m m'' := by
  intro a node ha
  obtain ⟨node', ha', hl⟩ := h a node ha
  obtain ⟨node'', ha'', hl'⟩ := h' a node' ha'
  exact ⟨node'', ha'', fun i b hb => hl' i b (hl i b hb)⟩

/-- What is reachable stays so. -/
theorem Reachable.keep (h : Reachable m root a) (hk : KeepsLinks m m') : Reachable m' root a := by
  induction h with
  | root he => exact .root he
  | child _ hb hl ih =>
    obtain ⟨node', hb', hl'⟩ := hk _ _ hb
    exact .child ih hb' (hl' _ _ hl)

theorem Reachable.head (hx : m.cells x = some node) (hc : node.children c = some b)
    (h : Reachable m (some b) a) : Reachable m (some x) a := by
  induction h with
  | root he => exact .child (.root rfl) hx (hc.trans he)
  | child _ hb hl ih => exact .child ih hb hl

/-- Every node of a tree is reachable. -/
theorem Holds.reachable (h : Holds m t) (ha : t.Has a) : Reachable m t.ptr a := by
  induction t with
  | nil => exact absurd ha id
  | node b l kids ih =>
    rcases ha with rfl | ⟨i, hi⟩
    · exact .root rfl
    · have hkid := ih i (h.2 i) hi
      cases hk : kids i with
      | nil =>
        rw [hk] at hi
        exact absurd hi id
      | node d l' kids' =>
        rw [hk, ptr_node] at hkid
        refine hkid.head h.1 (c := i) ?_
        change (kids i).ptr = some d
        rw [hk, ptr_node]

theorem Good.reachable_iff (h : Good m root n t) : Reachable m root a ↔ t.Has a := by
  refine ⟨h.has_of_reachable, fun ha => ?_⟩
  rw [← h.ptr]
  exact h.holds.reachable ha

/-! ### Insertion -/

/-- Writing a child. -/
theorem setChild_cells (hx : m.cells x = some node) (hr : setChild m (some x) c p = some m') :
    m'.cells = Function.update m.cells x
      (some { node with children := Function.update node.children c p }) := by
  obtain ⟨m₁, hr₁, hcells, _⟩ :=
    modify_spec hx (fun node => { node with children := Function.update node.children c p })
  have he : some m₁ = some m' := hr₁.symm.trans hr
  rw [← Option.some.inj he]
  exact hcells

/-- Where there was no child, none is lost. -/
theorem keepsLinks_setChild (hx : m.cells x = some node) (hc : node.children c = none)
    (hcells : m'.cells = Function.update m.cells x
      (some { node with children := Function.update node.children c p })) : KeepsLinks m m' := by
  intro a node' ha
  by_cases hax : a = x
  · subst hax
    obtain rfl := Option.some.inj (hx.symm.trans ha)
    refine ⟨_, by rw [hcells, Function.update_self], fun i b hb => ?_⟩
    have hic : i ≠ c := by
      rintro rfl
      rw [hc] at hb
      exact Option.some_ne_none b hb.symm
    exact (Function.update_of_ne hic _ _).trans hb
  · exact ⟨node', by rw [hcells, Function.update_of_ne hax, ha], fun _ _ hb => hb⟩

/-- **The loop of `trie_insert`** cuts no link, and changes only what is reachable afterwards. -/
theorem trieInsertFrom_owns (s : Str) : ∀ {m m' : Heap} {x : Nat} {ok : Bool},
    trieInsertFrom m (some x) s = some (ok, m') →
    KeepsLinks m m' ∧ ∀ a, ¬ Reachable m' (some x) a → m'.cells a = m.cells a := by
  induction s with
  | nil =>
    intro m m' x ok hr
    rw [trieInsertFrom] at hr
    obtain ⟨node, hx, hr⟩ := Option.bind_eq_some_iff.mp hr
    obtain ⟨m₁, hs, hr⟩ := Option.bind_eq_some_iff.mp hr
    obtain ⟨m₂, hs', hcell, honly⟩ := store_spec hx { node with isLeaf := true }
    obtain rfl := Option.some.inj (hs'.symm.trans hs)
    rw [Option.pure_def, Option.some.injEq, Prod.mk.injEq] at hr
    rw [← hr.2]
    refine ⟨fun a node' ha => ?_, fun a ha => honly.cells a (fun hm => ha ?_)⟩
    · by_cases hax : a = x
      · subst hax
        obtain rfl := Option.some.inj (hx.symm.trans ha)
        exact ⟨_, hcell, fun _ _ hb => hb⟩
      · exact ⟨node', (honly.cells a (by rwa [List.mem_singleton])).trans ha, fun _ _ hb => hb⟩
    · rw [List.mem_singleton.mp hm]
      exact .root rfl
  | cons c s ih =>
    intro m m' x ok hr
    rw [trieInsertFrom] at hr
    obtain ⟨node, hx, hr⟩ := Option.bind_eq_some_iff.mp hr
    obtain ⟨ch, _, hr⟩ := Option.bind_eq_some_iff.mp hr
    have hx : m.cells x = some node := hx
    cases hc : node.children ch with
    | some y =>
      rw [hc, if_pos (Option.isSome_some)] at hr
      obtain ⟨hk, hown⟩ := ih hr
      refine ⟨hk, fun a ha => hown a (fun hy => ha ?_)⟩
      obtain ⟨node', hx', hl⟩ := hk x node hx
      exact hy.head hx' (hl ch y hc)
    | none =>
      rw [hc, if_neg (by rw [Option.isSome_none]; exact Bool.false_ne_true)] at hr
      cases hout : m.outcomes.first with
      | false =>
        rw [trieNodeCreate, malloc_fail hout] at hr
        obtain ⟨m₁, hs, hr⟩ := Option.bind_eq_some_iff.mp hr
        have hcells := setChild_cells (m := m.ask.2) hx hs
        rw [if_pos Option.isNone_none, Option.pure_def, Option.some.injEq, Prod.mk.injEq] at hr
        rw [← hr.2]
        refine ⟨keepsLinks_setChild hx hc hcells, fun a ha => ?_⟩
        rw [hcells, Function.update_of_ne]
        · rfl
        · rintro rfl
          exact ha (.root rfl)
      | true =>
        obtain ⟨m₁, hm₁, hnew, hold, hnext, _⟩ := malloc_ok hout ⟨fun _ => none, false⟩
        rw [trieNodeCreate, hm₁] at hr
        obtain ⟨m₂, hs, hr⟩ := Option.bind_eq_some_iff.mp hr
        rw [Option.isNone_some, if_neg Bool.false_ne_true] at hr
        have hxn : x ≠ m.next := Nat.ne_of_lt (lt_next hx)
        have hx₁ : m₁.cells x = some node := (hold x hxn).trans hx
        have hcells := setChild_cells hx₁ hs
        obtain ⟨hk, hown⟩ := ih hr
        have hlink : ∀ a, Reachable m' (some m.next) a → Reachable m' (some x) a := by
          intro a ha
          obtain ⟨node', hx', hl⟩ := hk x _ (by rw [hcells, Function.update_self])
          exact ha.head hx' (hl ch m.next (Function.update_self ..))
        refine ⟨.trans ?_ hk, fun a ha => ?_⟩
        · refine .trans (fun a node' ha => ⟨node', ?_, fun _ _ hb => hb⟩)
            (keepsLinks_setChild hx₁ hc hcells)
          exact (hold a (Nat.ne_of_lt (lt_next ha))).trans ha
        · have hax : a ≠ x := by
            rintro rfl
            exact ha (.root rfl)
          have han : a ≠ m.next := by
            rintro rfl
            exact ha (hlink _ (.root rfl))
          rw [hown a (fun hn => ha (hlink a hn)), hcells, Function.update_of_ne hax, hold a han]

/-! ### Deletion -/

/-- What a cut takes out of a tree. -/
theorem Tree.has_cut_or {t : Tree} (ha : t.Has a) (w : Word) :
    (t.cut w).Has a ∨ (t.sub w).Has a := by
  induction w generalizing t with
  | nil =>
    rw [sub_nil]
    exact Or.inr ha
  | cons c w ih =>
    cases t with
    | nil => exact absurd ha id
    | node b l kids =>
      rcases ha with rfl | ⟨i, hi⟩
      · exact Or.inl (Or.inl rfl)
      · by_cases hic : i = c
        · subst hic
          refine (ih hi).imp_left (fun hcut => Or.inr ⟨i, ?_⟩)
          rwa [Function.update_self]
        · refine Or.inl (Or.inr ⟨i, ?_⟩)
          rwa [Function.update_of_ne hic]

/-- **Below the deepest branching** all nodes are destroyed, and nothing outside the tree has
changed. -/
theorem trieDelete_owns {k : Nat} (h : Holds m t) (hd : t.Distinct)
    (hr : trieLongestPrefix m t.ptr (some (str w)) = some ((k : Int) + 1)) (hw : t.sub w ≠ nil)
    (hk : Branches t w k) :
    ∃ m', trieDelete m t.ptr (some (str w)) = some (t.ptr, m') ∧
      (∀ a, ¬ t.Has a → m'.cells a = m.cells a) ∧
      ∀ a, (t.sub (w.take (k + 1))).Has a → m'.cells a = none := by
  obtain ⟨c, hc, _⟩ := hk
  have hpath : t.sub (w.take (k + 1)) ≠ nil := sub_ne_nil_of_prefix (List.take_prefix _ _) hw
  have hpath' : t.sub (w.take k) ≠ nil := sub_ne_nil_of_prefix (List.take_prefix _ _) hw
  have hroot : t.sub [] ≠ nil := sub_ne_nil_of_prefix List.nil_prefix hw
  rw [sub_nil] at hroot
  obtain ⟨b, l, kids, hsub⟩ : ∃ b l kids, t.sub (w.take k) = node b l kids := by
    cases hs : t.sub (w.take k) with
    | nil => exact absurd hs hpath'
    | node b l kids => exact ⟨b, l, kids, rfl⟩
  have hkid : t.sub (w.take (k + 1)) = kids c := by
    rw [take_succ_of hc, sub_append, hsub, node_sub_cons, sub_nil]
  rw [hkid] at hpath ⊢
  have hhold := h.sub (w.take k)
  have hdist := hd.sub (w.take k)
  have hin : ∀ a, (node b l kids).Has a → t.Has a := fun a ha => Has.of_sub (hsub ▸ ha)
  rw [hsub] at hhold hdist
  obtain ⟨m₁, hr₁, hm₁⟩ := trieNodeDestroy_spec (hhold.2 c) (hdist.1 c).1 hpath
    (Holds.deep (hhold.2 c) (hdist.1 c).1)
  have hb : m₁.cells b = some ⟨fun i => (kids i).ptr, l⟩ := (hm₁.kept b (hdist.1 c).2).trans hhold.1
  obtain ⟨m₂, hr₂, _, honly⟩ := store_spec hb
    ⟨Function.update (fun i => (kids i).ptr) c none, l⟩
  have hwalk := trieWalk_eq h hpath'
  rw [hsub, ptr_node, str_take] at hwalk
  have hget : (str w)[k]? = some (letter c) := by
    rw [str, List.getElem?_map, hc, Option.map_some]
  have hlast : ((k : Int) + 1).toNat - 1 = k := by omega
  have hset : setChild m₁ (some b) c none = some m₂ := by
    rw [setChild, show m₁.load (some b) = _ from hb]
    exact hr₂
  refine ⟨m₂, ?_, fun a ha => ?_, fun a ha => ?_⟩
  · rw [trieDelete, if_neg (not_isNone_ptr.mpr hroot), hr]
    simp only [Option.bind_eq_bind, Option.bind_some, if_neg (show ¬ (k : Int) + 1 < 0 by omega),
      if_neg (show ¬ (k : Int) + 1 = 0 by omega), hlast, hget, hwalk, childIdx_letter, hhold.load,
      if_neg (not_isNone_ptr.mpr hpath), hr₁, hset]
    rfl
  · have hab : a ≠ b := by
      rintro rfl
      exact ha (hin a (Or.inl rfl))
    rw [honly.cells a (by rwa [List.mem_singleton]), hm₁.kept a (fun hc => ha (hin a (Or.inr ⟨c, hc⟩)))]
  · have hab : a ≠ b := by
      rintro rfl
      exact (hdist.1 c).2 ha
    rw [honly.cells a (by rwa [List.mem_singleton]), hm₁.gone a ha]

/-! ### Runs -/

/-- Since `m₀` the nodes of `t` have been made, and nothing else has changed. -/
structure Owns (m₀ m : Heap) (t : Tree) : Prop where
  only : ∀ a, ¬ t.Has a → m.cells a = m₀.cells a
  fresh : ∀ a, t.Has a → m₀.next ≤ a
  next : m₀.next ≤ m.next

/-- **An insertion**, whatever the allocations answer. -/
theorem Good.insert_owns (h : Good m root n t) (ho : Owns m₀ m t) (hw : w.length < n) {r : Ptr}
    (hr : trieInsert m root (some (str w)) = some (r, m')) :
    ∃ t', Good m' root n t' ∧ Owns m₀ m' t' := by
  obtain ⟨ok, m₁, t', hr₁, hi, hdeep, _⟩ := trieInsert_spec h.holds h.distinct h.ne_nil w
  rw [h.ptr, hr, Option.some.injEq, Prod.mk.injEq] at hr₁
  obtain ⟨_, rfl⟩ := hr₁
  have hne : t' ≠ nil := fun hn => h.ne_nil (ptr_eq_none.mp (by rw [← hi.ptr, hn, ptr_nil]))
  have h' : Good m' root n t' :=
    ⟨hi.holds, hi.distinct, hne, hi.ptr.trans h.ptr, hdeep n h.deep hw⟩
  cases root with
  | none => exact absurd rfl h.isSome
  | some x =>
    rw [trieInsert, if_neg (show ¬ (some x : Ptr).isNone = true from Bool.false_ne_true)] at hr
    obtain ⟨⟨ok', m₁⟩, hfrom, he⟩ := Option.bind_eq_some_iff.mp hr
    rw [Option.pure_def, Option.some.injEq, Prod.mk.injEq] at he
    obtain ⟨_, rfl⟩ := he
    obtain ⟨hk, hown⟩ := trieInsertFrom_owns _ hfrom
    refine ⟨t', h', fun a ha => ?_, fun a ha => ?_, ho.next.trans hi.next⟩
    · rw [hown a (fun hreach => ha (h'.has_of_reachable hreach)), ho.only a (fun hold => ha ?_)]
      exact h'.has_of_reachable ((h.reachable_iff.mpr hold).keep hk)
    · rcases hi.has a ha with hold | hnew
      · exact ho.fresh a hold
      · exact ho.next.trans hnew

/-- **A deletion** that finds a branching. -/
theorem Good.delete_owns (h : Good m root maxWordLen t) (ho : Owns m₀ m t) (hb : branchesOff m root w)
    {r : Ptr} (hr : trieDelete m root (some (str w)) = some (r, m')) :
    ∃ t', Good m' root maxWordLen t' ∧ Owns m₀ m' t' := by
  have hdeep : t.Deep 256 := h.deep.mono (by decide)
  rw [← h.ptr] at hr hb
  rw [branchesOff_iff h.holds h.ne_nil] at hb
  rcases trieLongestPrefix_eq h.holds h.ne_nil hdeep w with
    ⟨hw, hp⟩ | ⟨hw, _, hno⟩ | ⟨k, hw, hp, hk, _⟩
  · rw [trieDelete, if_neg (not_isNone_ptr.mpr h.ne_nil), hp] at hr
    have he : some (none, m) = some (r, m') := hr
    rw [Option.some.injEq, Prod.mk.injEq] at he
    obtain ⟨_, rfl⟩ := he
    exact ⟨t, h, ho⟩
  · exact absurd hb (not_or.mpr ⟨hw, fun hex => hno _ hex.choose_spec⟩)
  · obtain ⟨m₁, hr₁, hholds, hnext, _⟩ := trieDelete_cut h.holds h.distinct hp hw hk
    obtain ⟨m₂, hr₂, hout, hgone⟩ := trieDelete_owns h.holds h.distinct hp hw hk
    obtain ⟨_, rfl⟩ := Prod.mk.inj (Option.some.inj (hr₁.symm.trans hr))
    obtain ⟨_, rfl⟩ := Prod.mk.inj (Option.some.inj (hr₂.symm.trans hr))
    refine ⟨_, h.cut (take_succ_ne_nil hk) hholds, fun a ha => ?_, fun a ha => ho.fresh a ha.of_cut,
      ho.next.trans (Nat.le_of_eq hnext.symm)⟩
    by_cases hat : t.Has a
    · rw [hgone a ((has_cut_or hat _).resolve_left ha), m₀.fresh a (ho.fresh a hat)]
    · rw [hout a hat, ho.only a hat]

/-- **Every run** owns what it has made. -/
theorem Reach.owns (h : Reach m₀ branchesOff root m) :
    ∃ t, Good m root maxWordLen t ∧ Owns m₀ m t := by
  induction h with
  | @start a m hr =>
    cases hout : m₀.outcomes.first with
    | false =>
      rw [trieNodeCreate, malloc_fail hout, Prod.mk.injEq] at hr
      exact absurd hr.1.symm (Option.some_ne_none a)
    | true =>
      obtain ⟨m₁, hr₁, h₁, _⟩ := trieNodeCreate_good m₀ (show 0 < maxWordLen by decide) hout
      obtain ⟨m₂, hr₂, _, hold, hnext, _⟩ := malloc_ok hout ⟨fun _ => none, false⟩
      rw [trieNodeCreate, hr₂, Prod.mk.injEq] at hr hr₁
      obtain ⟨_, rfl⟩ := hr₁
      obtain ⟨ha, rfl⟩ := hr
      rw [← ha]
      refine ⟨_, h₁, fun b hb => hold b (fun he => hb (Or.inl he)), fun b hb => ?_, ?_⟩
      · exact Nat.le_of_eq (has_fresh hb).symm
      · rw [hnext]
        exact Nat.le_succ _
  | insert _ hw hr ih =>
    obtain ⟨t, h, ho⟩ := ih
    exact h.insert_owns ho hw hr
  | delete _ _ hd hr ih =>
    obtain ⟨t, h, ho⟩ := ih
    exact h.delete_owns ho hd hr

/-- **A trie leaks no node.**  In every state of a run whose deletions find a branching, whatever
the allocations have answered, the nodes made since the root was created are those that are
reachable, and nothing else has changed; and `trie_node_destroy` frees them all, so that the memory
is what it was before. -/
theorem trie_life (m₀ : Heap) (root : Ptr) (m : Heap) (h : Reach m₀ branchesOff root m) :
    (∀ a, Reachable m root a ↔ m₀.next ≤ a ∧ m.cells a ≠ none) ∧
    (∀ a, a < m₀.next → m.cells a = m₀.cells a) ∧
    ∃ m', trieNodeDestroy m.next m root = some m' ∧ m'.cells = m₀.cells := by
  obtain ⟨t, h, ho⟩ := h.owns
  refine ⟨fun a => ?_, fun a ha => ho.only a (fun hat => Nat.not_lt.mpr (ho.fresh a hat) ha), ?_⟩
  · rw [h.reachable_iff]
    refine ⟨fun ha => ⟨ho.fresh a ha, ?_⟩, fun ⟨hge, hne⟩ => ?_⟩
    · obtain ⟨node, hn⟩ := h.holds.live ha
      rw [hn]
      exact Option.some_ne_none node
    · by_contra hat
      exact hne ((ho.only a hat).trans (m₀.fresh a hge))
  · obtain ⟨m', hr, hm'⟩ := trieNodeDestroy_spec h.holds h.distinct h.ne_nil
      (h.holds.deep h.distinct)
    rw [h.ptr] at hr
    refine ⟨m', hr, funext (fun a => ?_)⟩
    by_cases hat : t.Has a
    · rw [hm'.gone a hat, m₀.fresh a (ho.fresh a hat)]
    · rw [hm'.kept a hat, ho.only a hat]

theorem trie_life_exampleTrie :
    (∀ a, Reachable exampleTrie (some 0) a ↔
      (Memory.empty Outcomes.allOk : Heap).next ≤ a ∧ exampleTrie.cells a ≠ none) ∧
    (∀ a, a < (Memory.empty Outcomes.allOk : Heap).next →
      exampleTrie.cells a = (Memory.empty Outcomes.allOk : Heap).cells a) ∧
    ∃ m', trieNodeDestroy exampleTrie.next exampleTrie (some 0) = some m' ∧
      m'.cells = (Memory.empty Outcomes.allOk : Heap).cells :=
  trie_life (Memory.empty Outcomes.allOk) (some 0) exampleTrie (Reach.build (by decide) exampleTrie_eq)

end DataStructures.Trie
