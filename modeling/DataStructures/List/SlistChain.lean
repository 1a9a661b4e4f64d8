import DataStructures.List.Slist
import Mathlib.Data.List.Nodup
import Mathlib.Data.List.Perm.Subperm

/-!
# The chain of a singly linked list

`Seg cells p l q`: from `p` the nodes `l` lead to `q`.  `Holds h head l`: from `head` they lead
to NULL, and no other node is there.  An insertion and a deletion change the list behind a node
or at the front, so four lemmas (`Holds.insert_front` to `Holds.delete_behind`) say what becomes
of it.  `seek_found`, `seek_absent` and `seekLast_spec` say where the loops end.
-/

namespace DataStructures.Slist

open Lib

variable {D : Type}

/-! ### Segments -/

/-- The nodes of a memory. -/
abbrev Cells (D : Type) := Nat → Option (SlistT D)

/-- The addresses of nodes. -/
abbrev addrs (l : List (Nat × D)) : List Nat := l.map Prod.fst

/-- The data in nodes. -/
abbrev data (l : List (Nat × D)) : List D := l.map Prod.snd

/-- From `p` the nodes `l` lead to `q`. -/
def Seg (cells : Cells D) : Ptr → List (Nat × D) → Ptr → Prop
  | p, [], q => p = q
  | p, (a, d) :: l, q => p = some a ∧ ∃ next, cells a = some ⟨d, next⟩ ∧ Seg cells next l q

variable {cells cells' : Cells D} {p q : Ptr} {l r pre post : List (Nat × D)} {a b : Nat} {d e x : D}
  {y : Ptr}

theorem seg_append : Seg cells p (l ++ r) q ↔ ∃ z, Seg cells p l z ∧ Seg cells z r q := by
  induction l generalizing p with
  | nil =>
    constructor
    · exact fun h => ⟨p, rfl, h⟩
    · rintro ⟨z, rfl, h⟩
      exact h
  | cons n l ih =>
    constructor
    · rintro ⟨hp, next, hn, h⟩
      obtain ⟨z, h1, h2⟩ := ih.mp h
      exact ⟨z, ⟨hp, next, hn, h1⟩, h2⟩
    · rintro ⟨z, ⟨hp, next, hn, h1⟩, h2⟩
      exact ⟨hp, next, hn, ih.mpr ⟨z, h1, h2⟩⟩

/-- A node in the middle. -/
theorem seg_middle : Seg cells p (pre ++ (a, d) :: post) q ↔
    Seg cells p pre (some a) ∧ ∃ next, cells a = some ⟨d, next⟩ ∧ Seg cells next post q := by
  rw [seg_append]
  constructor
  · rintro ⟨z, h1, rfl, h2⟩
    exact ⟨h1, h2⟩
  · rintro ⟨h1, h2⟩
    exact ⟨some a, h1, rfl, h2⟩

/-- A segment reads only its own nodes. -/
theorem Seg.congr (h : Seg cells p l q) (hc : ∀ a ∈ addrs l, cells' a = cells a) :
    Seg cells' p l q := by
  induction l generalizing p with
  | nil => exact h
  | cons n l ih =>
    obtain ⟨hp, next, hn, h⟩ := h
    exact ⟨hp, next, (hc n.1 List.mem_cons_self).trans hn,
      ih h (fun a ha => hc a (List.mem_cons_of_mem _ ha))⟩

/-- **The nodes lead from `head` to NULL**, and no other node is there. -/
structure Holds (h : Heap D) (head : Ptr) (l : List (Nat × D)) : Prop where
  seg : Seg h.mem.cells head l none
  nodup : (addrs l).Nodup
  live : ∀ a, h.mem.cells a ≠ none → a ∈ addrs l

variable {h h' : Heap D} {head : Ptr}

theorem Seg.ne_none (hs : Seg cells p l q) : ∀ a ∈ addrs l, cells a ≠ none := by
  induction l generalizing p with
  | nil => exact fun a ha => absurd ha List.not_mem_nil
  | cons n l ih =>
    obtain ⟨-, next, hn, hs⟩ := hs
    intro a ha
    rcases List.mem_cons.mp ha with rfl | ha
    · rw [hn]
      exact Option.some_ne_none _
    · exact ih hs a ha

theorem Holds.mem_iff (hh : Holds h head l) : h.mem.cells a ≠ none ↔ a ∈ addrs l :=
  ⟨hh.live a, hh.seg.ne_none a⟩

/-- From one address there is one way to NULL. -/
theorem Seg.unique (hl : Seg cells p l none) (hr : Seg cells p r none) : l = r := by
  induction l generalizing p r with
  | nil =>
    obtain rfl : p = none := hl
    cases r with
    | nil => rfl
    | cons n r => exact absurd hr.1 (Option.some_ne_none _).symm
  | cons n l ih =>
    obtain ⟨rfl, next, hn, hl⟩ := hl
    cases r with
    | nil => exact absurd hr (Option.some_ne_none _)
    | cons n' r =>
      obtain ⟨he, next', hn', hr⟩ := hr
      rw [Option.some.injEq] at he
      rw [← he, hn, Option.some.injEq, SlistT.mk.injEq] at hn'
      rw [← hn'.2] at hr
      rw [ih hl hr, Prod.ext he hn'.1]

/-- **A chain that ends in NULL meets no node twice**: from the same node on it would have to be
equally long. -/
theorem Seg.nodup (hs : Seg cells p l none) : (addrs l).Nodup := by
  induction l generalizing p with
  | nil => exact List.nodup_nil
  | cons n l ih =>
    have hs' := hs
    obtain ⟨rfl, next, hn, hl⟩ := hs
    refine List.nodup_cons.mpr ⟨fun hm => ?_, ih hl⟩
    obtain ⟨⟨a, d⟩, hmem, ha⟩ := List.mem_map.mp hm
    obtain ⟨pre, post, rfl⟩ := List.append_of_mem hmem
    obtain ⟨-, hpost⟩ := seg_middle.mp hl
    have hrest : Seg cells (some n.1) ((a, d) :: post) none := ⟨congrArg some ha.symm, hpost⟩
    have hlen := congrArg List.length (hs'.unique hrest)
    simp only [List.length_cons, List.length_append] at hlen
    omega

/-- **There are rounds enough for a list.** -/
theorem Seg.length_lt (hs : Seg h.mem.cells p l none) : l.length < h.rounds := by
  have hsub : addrs l ⊆ List.range h.mem.next := by
    intro a ha
    obtain ⟨n, hn⟩ := Option.ne_none_iff_exists'.mp (hs.ne_none a ha)
    exact List.mem_range.mpr (Memory.lt_next hn)
  have hle := (hs.nodup.subperm hsub).length_le
  rw [List.length_map, List.length_range] at hle
  exact Nat.lt_succ_of_le hle

theorem Holds.length_lt (hh : Holds h head l) : l.length < h.rounds := hh.seg.length_lt

/-- The addresses around a node are others. -/
theorem nodup_middle (pre : List (Nat × D)) (hn : (addrs (pre ++ (a, d) :: post)).Nodup) :
    (∀ b ∈ addrs pre, b ≠ a) ∧ (∀ b ∈ addrs post, b ≠ a) ∧ (addrs (pre ++ post)).Nodup := by
  rw [addrs, List.map_append, List.map_cons, List.nodup_middle, List.nodup_cons,
    List.mem_append, not_or] at hn
  obtain ⟨⟨h1, h2⟩, h3⟩ := hn
  refine ⟨?_, ?_, by rwa [addrs, List.map_append]⟩
  · rintro b hb rfl
    exact h1 hb
  · rintro b hb rfl
    exact h2 hb

/-! ### The four changes -/

/-- The list has got a node more, at an address that was free. -/
theorem Holds.of_insert (pre : List (Nat × D)) (hh : Holds h head (pre ++ post)) (hnew : h.mem.cells a = none)
    (hs : Seg h'.mem.cells p (pre ++ (a, x) :: post) none)
    (hlive : ∀ b, b ≠ a → h'.mem.cells b ≠ none → h.mem.cells b ≠ none) :
    Holds h' p (pre ++ (a, x) :: post) := by
  have hperm : (addrs (pre ++ (a, x) :: post)).Perm (a :: addrs (pre ++ post)) :=
    List.Perm.map Prod.fst List.perm_middle
  refine ⟨hs, ?_, fun b hb => ?_⟩
  · rw [hperm.nodup_iff, List.nodup_cons]
    exact ⟨fun hc => hh.mem_iff.mpr hc hnew, hh.nodup⟩
  · rw [hperm.mem_iff, List.mem_cons]
    by_cases hba : b = a
    · exact .inl hba
    · exact .inr (hh.live b (hlive b hba hb))

/-- The list has got a node less, which has been freed. -/
theorem Holds.of_delete (pre : List (Nat × D)) (hh : Holds h head (pre ++ (a, x) :: post))
    (hs : Seg h'.mem.cells p (pre ++ post) none) (hfree : h'.mem.cells a = none)
    (hlive : ∀ b, b ≠ a → h'.mem.cells b ≠ none → h.mem.cells b ≠ none) :
    Holds h' p (pre ++ post) := by
  have hperm : (addrs (pre ++ (a, x) :: post)).Perm (a :: addrs (pre ++ post)) :=
    List.Perm.map Prod.fst List.perm_middle
  refine ⟨hs, (nodup_middle _ hh.nodup).2.2, fun b hb => ?_⟩
  have hba : b ≠ a := by
    rintro rfl
    exact hb hfree
  have hmem := hh.live b (hlive b hba hb)
  rw [hperm.mem_iff, List.mem_cons] at hmem
  exact hmem.resolve_left hba

theorem Holds.insert_front (hh : Holds h head l) (hnew : h.mem.cells a = none)
    (hc : h'.mem.cells = Function.update h.mem.cells a (some ⟨x, head⟩)) :
    Holds h' (some a) ((a, x) :: l) := by
  have hne : ∀ b ∈ addrs l, b ≠ a := by
    rintro b hb rfl
    exact hh.mem_iff.mpr hb hnew
  refine hh.of_insert [] hnew ⟨rfl, head, ?_, hh.seg.congr (fun b hb => ?_)⟩ (fun b hb => ?_)
  · rw [hc, Function.update_self]
  · rw [hc, Function.update_of_ne (hne b hb)]
  · rw [hc, Function.update_of_ne hb]
    exact id

theorem Holds.insert_behind (hh : Holds h head (pre ++ (b, e) :: post))
    (hb : h.mem.cells b = some ⟨e, y⟩) (hnew : h.mem.cells a = none)
    (hc : h'.mem.cells = Function.update (Function.update h.mem.cells a (some ⟨x, y⟩)) b
      (some ⟨e, some a⟩)) : Holds h' head (pre ++ (b, e) :: (a, x) :: post) := by
  obtain ⟨hpre, next, hb', hpost⟩ := seg_middle.mp hh.seg
  obtain rfl : y = next := by
    rw [hb, Option.some.injEq, SlistT.mk.injEq] at hb'
    exact hb'.2
  obtain ⟨hneb, hnepost, -⟩ := nodup_middle _ hh.nodup
  have hne : ∀ c ∈ addrs (pre ++ (b, e) :: post), c ≠ a := by
    rintro c hcm rfl
    exact hh.mem_iff.mpr hcm hnew
  have hba : b ≠ a := hne b (List.mem_map.mpr ⟨(b, e), by simp, rfl⟩)
  have hother : ∀ c, c ≠ b → c ≠ a → h'.mem.cells c = h.mem.cells c := by
    intro c hcb hca
    rw [hc, Function.update_of_ne hcb, Function.update_of_ne hca]
  have hs : Seg h'.mem.cells head (pre ++ (b, e) :: (a, x) :: post) none := by
    refine seg_middle.mpr ⟨hpre.congr (fun c hcm => ?_), some a, ?_, rfl, y, ?_, hpost.congr
      (fun c hcm => ?_)⟩
    · refine hother c (hneb c hcm) (hne c ?_)
      rw [addrs, List.map_append]
      exact List.mem_append_left _ hcm
    · rw [hc, Function.update_self]
    · rw [hc, Function.update_of_ne hba.symm, Function.update_self]
    · refine hother c (hnepost c hcm) (hne c ?_)
      rw [addrs, List.map_append]
      exact List.mem_append_right _ (List.mem_cons_of_mem b hcm)
  rw [List.append_cons] at hh hs ⊢
  refine hh.of_insert _ hnew hs (fun c hca hcm => ?_)
  by_cases hcb : c = b
  · rw [hcb, hb]
    exact Option.some_ne_none _
  · rwa [hother c hcb hca] at hcm

theorem Holds.delete_front (hh : Holds h head ((a, x) :: l)) (ha : h.mem.cells a = some ⟨x, y⟩)
    (hc : h'.mem.cells = Function.update h.mem.cells a none) : Holds h' y l := by
  obtain ⟨-, next, ha', hs⟩ := hh.seg
  obtain rfl : y = next := by
    rw [ha, Option.some.injEq, SlistT.mk.injEq] at ha'
    exact ha'.2
  have hne := (nodup_middle [] hh.nodup).2.1
  refine hh.of_delete [] (hs.congr (fun b hb => ?_)) ?_ (fun b hb => ?_)
  · rw [hc, Function.update_of_ne (hne b hb)]
  · rw [hc, Function.update_self]
  · rw [hc, Function.update_of_ne hb]
    exact id

theorem Holds.delete_behind (hh : Holds h head (pre ++ (b, e) :: (a, x) :: post))
    (ha : h.mem.cells a = some ⟨x, y⟩)
    (hc : h'.mem.cells = Function.update (Function.update h.mem.cells b (some ⟨e, y⟩)) a none) :
    Holds h' head (pre ++ (b, e) :: post) := by
  obtain ⟨hpre, next, hb, hnext, next', ha', hpost⟩ := seg_middle.mp hh.seg
  subst hnext
  obtain rfl : y = next' := by
    rw [ha, Option.some.injEq, SlistT.mk.injEq] at ha'
    exact ha'.2
  obtain ⟨hneb, hnepost, -⟩ := nodup_middle _ hh.nodup
  have hh' : Holds h head ((pre ++ [(b, e)]) ++ (a, x) :: post) := by
    rwa [List.append_cons] at hh
  obtain ⟨hnea, hnea', -⟩ := nodup_middle _ hh'.nodup
  have hba : b ≠ a := hnea b (List.mem_map.mpr ⟨(b, e), by simp, rfl⟩)
  have hother : ∀ c, c ≠ b → c ≠ a → h'.mem.cells c = h.mem.cells c := by
    intro c hcb hca
    rw [hc, Function.update_of_ne hca, Function.update_of_ne hcb]
  have hs : Seg h'.mem.cells head (pre ++ (b, e) :: post) none := by
    refine seg_middle.mpr ⟨hpre.congr (fun c hcm => ?_), y, ?_, hpost.congr (fun c hcm => ?_)⟩
    · refine hother c (hneb c hcm) (hnea c ?_)
      rw [addrs, List.map_append]
      exact List.mem_append_left _ hcm
    · rw [hc, Function.update_of_ne hba, Function.update_self]
    · exact hother c (hnepost c (List.mem_cons_of_mem a hcm)) (hnea' c hcm)
  rw [List.append_cons] at hs ⊢
  refine hh'.of_delete _ hs (by rw [hc, Function.update_self]) (fun c hca hcm => ?_)
  by_cases hcb : c = b
  · rw [hcb, hb]
    exact Option.some_ne_none _
  · rwa [hother c hcb hca] at hcm

/-! ### The steps of the functions -/

section Steps

theorem setNext_spec {n : SlistT D} (ha : h.mem.cells a = some n) (next : Ptr) : ∃ h',
    setNext h (some a) next = some h' ∧
    h'.mem.cells = Function.update h.mem.cells a (some { n with next := next }) ∧
    h'.released = h.released ∧ h'.mem.outcomes = h.mem.outcomes := by
  obtain ⟨m', hst, hx, hm'⟩ := Memory.store_spec ha { n with next := next }
  have hrun : setNext h (some a) next = some { h with mem := m' } := by
    rw [setNext, Memory.load, ha, Option.bind_eq_bind, Option.bind_some, hst]
    rfl
  exact ⟨_, hrun, hm'.cells_eq hx, rfl, hm'.outcomes⟩

theorem release_spec {n : SlistT D} (ha : h.mem.cells a = some n) : ∃ h',
    release h (some a) = some h' ∧ h'.mem.cells = Function.update h.mem.cells a none ∧
    h'.released = h.released ++ [n.data] ∧ h'.mem.outcomes = h.mem.outcomes := by
  obtain ⟨m', hfr, hx, hm'⟩ := Memory.free_spec ha
  have hrun : release h (some a) = some ⟨m', h.released ++ [n.data]⟩ := by
    rw [release, Memory.load, ha, Option.bind_eq_bind, Option.bind_some, hfr]
    rfl
  exact ⟨_, hrun, hm'.cells_eq hx, rfl, hm'.outcomes⟩

theorem slistNodeCreate_ok (ho : h.mem.outcomes.first = true) (x : D) : ∃ a h',
    slistNodeCreate h x = (some a, h') ∧ h.mem.cells a = none ∧
    h'.mem.cells = Function.update h.mem.cells a (some ⟨x, none⟩) ∧ h.rounds ≤ h'.rounds ∧
    h'.released = h.released ∧ h'.mem.outcomes = h.mem.outcomes.rest := by
  obtain ⟨m', hm, hself, hother, hnext, hout⟩ := Memory.malloc_ok ho ⟨x, none⟩
  have hrun : slistNodeCreate h x = (some h.mem.next, { h with mem := m' }) := by
    rw [slistNodeCreate, hm]
  refine ⟨_, _, hrun, h.mem.fresh _ (Nat.le_refl _), Function.eq_update_iff.mpr ⟨hself, hother⟩, ?_, rfl, hout⟩
  rw [Heap.rounds, Heap.rounds, hnext]
  exact Nat.le_succ _

theorem slistNodeCreate_fail (ho : h.mem.outcomes.first = false) (x : D) :
    slistNodeCreate h x = (none, { h with mem := h.mem.ask.2 }) := by
  rw [slistNodeCreate, Memory.malloc_fail ho]

/-- **A new node in front.** -/
theorem Holds.link_front (hh : Holds h head l) (ho : h.mem.outcomes.first = true) (x : D) :
    ∃ a h₁ h₂, slistNodeCreate h x = (some a, h₁) ∧ setNext h₁ (some a) head = some h₂ ∧
      Holds h₂ (some a) ((a, x) :: l) ∧ h₂.released = h.released ∧
      h₂.mem.outcomes = h.mem.outcomes.rest := by
  obtain ⟨a, h₁, hcr, hnew, hc₁, -, hr₁, ho₁⟩ := slistNodeCreate_ok ho x
  have ha : h₁.mem.cells a = some ⟨x, none⟩ := by rw [hc₁, Function.update_self]
  obtain ⟨h₂, hset, hc₂, hr₂, ho₂⟩ := setNext_spec ha head
  have hc : h₂.mem.cells = Function.update h.mem.cells a (some ⟨x, head⟩) := by
    rw [hc₂, hc₁, Function.update_idem]
  exact ⟨a, h₁, h₂, hcr, hset, hh.insert_front hnew hc, hr₂.trans hr₁, ho₂.trans ho₁⟩

/-- **A new node behind `b`.** -/
theorem Holds.link_behind (hh : Holds h head (pre ++ (b, e) :: post))
    (hb : h.mem.cells b = some ⟨e, y⟩) (ho : h.mem.outcomes.first = true) (x : D) :
    ∃ a h₁ h₂ h₃, slistNodeCreate h x = (some a, h₁) ∧ h.rounds ≤ h₁.rounds ∧
      (∀ c, h.mem.cells c ≠ none → h₁.mem.cells c = h.mem.cells c) ∧
      setNext h₁ (some a) y = some h₂ ∧ setNext h₂ (some b) (some a) = some h₃ ∧
      Holds h₃ head (pre ++ (b, e) :: (a, x) :: post) ∧ h₃.released = h.released ∧
      h₃.mem.outcomes = h.mem.outcomes.rest := by
  obtain ⟨a, h₁, hcr, hnew, hc₁, hrounds, hr₁, ho₁⟩ := slistNodeCreate_ok ho x
  have hother : ∀ c, h.mem.cells c ≠ none → h₁.mem.cells c = h.mem.cells c := by
    intro c hcn
    have hca : c ≠ a := by
      rintro rfl
      exact hcn hnew
    rw [hc₁, Function.update_of_ne hca]
  have hba : b ≠ a := by
    rintro rfl
    rw [hb] at hnew
    cases hnew
  have ha : h₁.mem.cells a = some ⟨x, none⟩ := by rw [hc₁, Function.update_self]
  obtain ⟨h₂, hset, hc₂, hr₂, ho₂⟩ := setNext_spec ha y
  have hc₂' : h₂.mem.cells = Function.update h.mem.cells a (some ⟨x, y⟩) := by
    rw [hc₂, hc₁, Function.update_idem]
  have hb₂ : h₂.mem.cells b = some ⟨e, y⟩ := by rw [hc₂', Function.update_of_ne hba, hb]
  obtain ⟨h₃, hset', hc₃, hr₃, ho₃⟩ := setNext_spec hb₂ (some a)
  rw [hc₂'] at hc₃
  exact ⟨a, h₁, h₂, h₃, hcr, hrounds, hother, hset, hset', hh.insert_behind hb hnew hc₃,
    hr₃.trans (hr₂.trans hr₁), ho₃.trans (ho₂.trans ho₁)⟩

/-- **The first node is freed.** -/
theorem Holds.unlink_front (hh : Holds h head ((a, x) :: l)) (ha : h.mem.cells a = some ⟨x, y⟩) :
    ∃ h', release h (some a) = some h' ∧ Holds h' y l ∧ h'.released = h.released ++ [x] ∧
      h'.mem.outcomes = h.mem.outcomes := by
  obtain ⟨h', hrel, hc, hr, ho⟩ := release_spec ha
  exact ⟨h', hrel, hh.delete_front ha hc, hr, ho⟩

/-- A node is unlinked from the one in front of it, and freed. -/
theorem unlinkNext_spec {next : Ptr} (hb : h.mem.cells b = some ⟨e, next⟩)
    (ha : h.mem.cells a = some ⟨x, y⟩) (hab : a ≠ b) :
    ∃ h₁ h₂, setNext h (some b) y = some h₁ ∧ release h₁ (some a) = some h₂ ∧
      h₂.mem.cells = Function.update (Function.update h.mem.cells b (some ⟨e, y⟩)) a none ∧
      h₂.released = h.released ++ [x] ∧ h₂.mem.outcomes = h.mem.outcomes := by
  obtain ⟨h₁, hset, hc₁, hr₁, ho₁⟩ := setNext_spec hb y
  have ha₁ : h₁.mem.cells a = some ⟨x, y⟩ := by rw [hc₁, Function.update_of_ne hab, ha]
  obtain ⟨h₂, hrel, hc₂, hr₂, ho₂⟩ := release_spec ha₁
  rw [hc₁] at hc₂
  rw [hr₁] at hr₂
  exact ⟨h₁, h₂, hset, hrel, hc₂, hr₂, ho₂.trans ho₁⟩

/-- **The node behind `b` is freed.** -/
theorem Holds.unlink_behind (hh : Holds h head (pre ++ (b, e) :: (a, x) :: post))
    (ha : h.mem.cells a = some ⟨x, y⟩) :
    ∃ h₁ h₂, setNext h (some b) y = some h₁ ∧ release h₁ (some a) = some h₂ ∧
      Holds h₂ head (pre ++ (b, e) :: post) ∧ h₂.released = h.released ++ [x] ∧
      h₂.mem.outcomes = h.mem.outcomes := by
  obtain ⟨-, next, hb, -⟩ := seg_middle.mp hh.seg
  have hab : a ≠ b := (nodup_middle _ hh.nodup).2.1 a List.mem_cons_self
  obtain ⟨h₁, h₂, hset, hrel, hc, hr, ho⟩ := unlinkNext_spec hb ha hab
  exact ⟨h₁, h₂, hset, hrel, hh.delete_behind ha hc, hr, ho⟩

/-- The last two nodes that have been passed. -/
def trail (l : List (Nat × D)) (c : Ptr × Ptr) : Ptr × Ptr := l.foldl (fun c n => (c.2, some n.1)) c

theorem trail_concat (n : Nat × D) (c : Ptr × Ptr) :
    trail (l ++ [n]) c = ((trail l c).2, some n.1) := List.foldl_concat _ _ _ _

variable {cmp : D → D → Int} {ref : D} {rounds : Nat}

/-- **The loop stops at the first match.** -/
theorem seek_found (hs : Seg h.mem.cells p (pre ++ (a, d) :: post) q) (hd : cmp d ref = 0)
    (hpre : ∀ n ∈ pre, cmp n.2 ref ≠ 0) (hr : pre.length < rounds) (c : Ptr × Ptr) :
    seek cmp h ref rounds c.1 c.2 p = some ((trail pre c).1, (trail pre c).2, some a) := by
  induction pre generalizing p rounds c with
  | nil =>
    obtain ⟨rfl, next, ha, -⟩ := hs
    obtain ⟨rounds, rfl⟩ := Nat.exists_eq_add_of_lt hr
    rw [seek, Memory.load, ha]
    exact if_pos hd
  | cons n pre ih =>
    obtain ⟨rfl, next, hn, hs⟩ := hs
    cases rounds with
    | zero => exact absurd hr (Nat.not_lt_zero _)
    | succ rounds =>
      rw [seek, Memory.load, hn, Option.bind_eq_bind, Option.bind_some,
        if_neg (hpre n List.mem_cons_self)]
      exact ih hs (fun n hn => hpre n (List.mem_cons_of_mem _ hn)) (Nat.lt_of_succ_lt_succ hr)
        (c.2, some n.1)

/-- **Where nothing matches** it goes to the end. -/
theorem seek_absent (hs : Seg h.mem.cells p l none) (hl : ∀ n ∈ l, cmp n.2 ref ≠ 0)
    (hr : l.length < rounds) (c : Ptr × Ptr) :
    seek cmp h ref rounds c.1 c.2 p = some ((trail l c).1, (trail l c).2, none) := by
  induction l generalizing p rounds c with
  | nil =>
    obtain rfl : p = none := hs
    obtain ⟨rounds, rfl⟩ := Nat.exists_eq_add_of_lt hr
    rfl
  | cons n l ih =>
    obtain ⟨rfl, next, hn, hs⟩ := hs
    cases rounds with
    | zero => exact absurd hr (Nat.not_lt_zero _)
    | succ rounds =>
      rw [seek, Memory.load, hn, Option.bind_eq_bind, Option.bind_some,
        if_neg (hl n List.mem_cons_self)]
      exact ih hs (fun n hn => hl n (List.mem_cons_of_mem _ hn)) (Nat.lt_of_succ_lt_succ hr)
        (c.2, some n.1)

/-- The loop to the last node. -/
theorem seekLast_spec (hs : Seg h.mem.cells p (pre ++ [(a, d)]) none) (hr : pre.length < rounds)
    (c : Ptr × Ptr) : seekLast h rounds c.2 p = some ((trail pre c).2, some a) := by
  induction pre generalizing p rounds c with
  | nil =>
    obtain ⟨rfl, next, ha, hnext⟩ := hs
    obtain rfl : next = none := hnext
    obtain ⟨rounds, rfl⟩ := Nat.exists_eq_add_of_lt hr
    rw [seekLast, Memory.load, ha]
    rfl
  | cons n pre ih =>
    obtain ⟨rfl, next, hn, hs⟩ := hs
    have hnext : next.isSome := by
      cases pre with
      | nil => rw [hs.1]; rfl
      | cons n' pre => rw [hs.1]; rfl
    cases rounds with
    | zero => exact absurd hr (Nat.not_lt_zero _)
    | succ rounds =>
      rw [seekLast, Memory.load, hn, Option.bind_eq_bind, Option.bind_some, if_pos hnext]
      exact ih hs (Nat.lt_of_succ_lt_succ hr) (c.2, some n.1)

end Steps

/-! ### A list in memory -/

/-- The nodes with the given data at the addresses `0`, `1` and so on, each leading to the next. -/
def heapOf (l : List D) : Heap D where
  mem :=
    { cells := fun a => l[a]?.map (fun d => ⟨d, if a + 1 < l.length then some (a + 1) else none⟩)
      next := l.length
      outcomes := Outcomes.allOk
      fresh := fun _ ha => by rw [List.getElem?_eq_none ha, Option.map_none] }
  released := []

end DataStructures.Slist
