import Mathlib.Data.Finset.Max
import Mathlib.Data.List.Cycle
import Mathlib.Algebra.BigOperators.Group.Finset.Basic
import Mathlib.Data.Set.Card
import Mathlib.Order.Defs.LinearOrder

/-!
# Counting the simple cycles of a graph

A simple cycle is a `Cycle` of different vertices along the edges; the cycle and its reverse are
counted as one (`simpleCycles`).  `Rooted adj n l`: the list goes round such a cycle of `n` vertices
from its least vertex on.

`two_mul_ncard`: in an undirected graph there are two such lists for every simple cycle of at least
three vertices, one for each direction.
-/

namespace DataStructures.Lib.CountCycles

open List

variable {V : Type} {adj : V → V → Prop} {n : Nat} {l l' t t' : List V} {m m' : V}

/-- A cycle and its reverse. -/
def bothWays (c : Cycle V) : Set (Cycle V) := {c, c.reverse}

/-- The simple cycles of `n` vertices, whatever their start and direction. -/
def simpleCycles (adj : V → V → Prop) (n : Nat) : Set (Set (Cycle V)) :=
  {C | ∃ c : Cycle V, c.Nodup ∧ c.length = n ∧ c.Chain adj ∧ C = bothWays c}

theorem mem_bothWays {c c' : Cycle V} : c ∈ bothWays c' ↔ c = c' ∨ c = c'.reverse := Iff.rfl

theorem bothWays_reverse (c : Cycle V) : bothWays c.reverse = bothWays c := by
  rw [bothWays, bothWays, Cycle.reverse_reverse, Set.pair_comm]

/-- **A list without repetitions is rotated in one way** with the same first vertex. -/
theorem eq_of_isRotated (hn : (m :: t).Nodup) (h : (m :: t) ~r (m :: t')) : t = t' := by
  obtain ⟨k, hk, hr⟩ := isRotated_iff_mod.mp h
  rcases Nat.eq_or_lt_of_le hk with rfl | hlt
  · rw [rotate_length] at hr
    exact (cons.inj hr).2
  · have hhead := congrArg head? hr
    rw [head?_rotate hlt, head?_cons] at hhead
    have h0 : (m :: t)[0]? = (m :: t)[k]? := hhead.symm
    obtain rfl : 0 = k := (getElem?_inj (Nat.succ_pos _) hn).mp h0
    rw [rotate_zero] at hr
    exact (cons.inj hr).2

theorem isRotated_reverse (m : V) (t : List V) : (m :: t.reverse) ~r (m :: t).reverse := by
  rw [reverse_cons]
  exact (isRotated_concat m t.reverse).symm

/-- The cycle that a list goes round, in both directions. -/
def roundOf (l : List V) : Set (Cycle V) := bothWays (l : Cycle V)

variable [LinearOrder V]

/-- The list goes round a simple cycle from its least vertex on. -/
structure Rooted (adj : V → V → Prop) (n : Nat) (m : V) (t : List V) : Prop where
  length : t.length + 1 = n
  nodup : (m :: t).Nodup
  chain : IsChain adj (m :: (t ++ [m]))
  least : ∀ v ∈ t, m < v

theorem Rooted.least_le (h : Rooted adj n m t) {v : V} (hv : v ∈ m :: t) : m ≤ v := by
  rcases mem_cons.mp hv with rfl | hv
  · exact le_rfl
  · exact (h.least v hv).le

/-- **One list for each cycle.** -/
theorem Rooted.eq_of_isRotated (h : Rooted adj n m t) (h' : Rooted adj n m' t')
    (hr : (m :: t) ~r (m' :: t')) : m = m' ∧ t = t' := by
  have hm : m ∈ m' :: t' := hr.mem_iff.mp mem_cons_self
  have hm' : m' ∈ m :: t := hr.mem_iff.mpr mem_cons_self
  obtain rfl : m = m' := le_antisymm (h.least_le hm') (h'.least_le hm)
  exact ⟨rfl, CountCycles.eq_of_isRotated h.nodup hr⟩

/-- The other direction. -/
theorem Rooted.reverse (hsymm : ∀ u v, adj u v → adj v u) (h : Rooted adj n m t) :
    Rooted adj n m t.reverse where
  length := by rw [length_reverse, h.length]
  nodup := (isRotated_reverse m t).nodup_iff.mpr (nodup_reverse.mpr h.nodup)
  chain := by
    have hc := isChain_reverse.mpr h.chain
    rw [reverse_cons, reverse_append] at hc
    exact hc.imp fun u v huv => hsymm v u huv
  least v hv := h.least v (mem_reverse.mp hv)

theorem Rooted.reverse_ne (hn : 3 ≤ n) (h : Rooted adj n m t) : t.reverse ≠ t := by
  intro heq
  have hlen := h.length
  have hnd := (nodup_cons.mp h.nodup).2
  have hlast : t[0]? = t[t.length - 1 - 0]? := by
    conv_lhs => rw [← heq]
    exact getElem?_reverse (by omega)
  have := (getElem?_inj (by omega) hnd).mp hlast
  omega

/-- **Which lists go round the same cycle.** -/
theorem Rooted.roundOf_eq_iff (hsymm : ∀ u v, adj u v → adj v u) (h : Rooted adj n m t)
    (h' : Rooted adj n m' t') :
    roundOf (m' :: t') = roundOf (m :: t) ↔
      m' = m ∧ (t' = t ∨ t' = t.reverse) := by
  refine ⟨fun heq => ?_, ?_⟩
  · have hself : (↑(m' :: t') : Cycle V) ∈ roundOf (m' :: t') := mem_bothWays.mpr (Or.inl rfl)
    rw [heq] at hself
    rcases mem_bothWays.mp hself with hc | hc
    · obtain ⟨hm, ht⟩ := h'.eq_of_isRotated h (Cycle.coe_eq_coe.mp hc)
      exact ⟨hm, Or.inl ht⟩
    · rw [Cycle.reverse_coe, Cycle.coe_eq_coe] at hc
      obtain ⟨hm, ht⟩ := h'.eq_of_isRotated (h.reverse hsymm) (hc.trans (isRotated_reverse m t).symm)
      exact ⟨hm, Or.inr ht⟩
  · rintro ⟨rfl, rfl | rfl⟩
    · rfl
    · rw [roundOf, Cycle.coe_eq_coe.mpr (isRotated_reverse m' t), ← Cycle.reverse_coe, bothWays_reverse]
      rfl

/-- **A simple cycle can be gone round** from its least vertex. -/
theorem exists_rooted {c : Cycle V} (hn : c.Nodup) (hl : c.length = n) (h0 : 0 < n)
    (hc : c.Chain adj) : ∃ m t, Rooted adj n m t ∧ c = ↑(m :: t) := by
  induction c using Cycle.induction_on with
  | nil => exact absurd hl h0.ne
  | cons x l _ =>
    obtain ⟨m, hm, hle⟩ : ∃ m ∈ x :: l, ∀ v ∈ x :: l, m ≤ v := by
      obtain ⟨m, hm, hle⟩ := (x :: l).toFinset.exists_min_image id ⟨x, by simp⟩
      exact ⟨m, mem_toFinset.mp hm, fun v hv => hle v (mem_toFinset.mpr hv)⟩
    obtain ⟨a, b, hab⟩ := append_of_mem hm
    have heq : (↑(x :: l) : Cycle V) = ↑(m :: (b ++ a)) := by
      rw [hab]
      exact Cycle.coe_eq_coe.mpr isRotated_append
    rw [heq] at hn hl hc
    refine ⟨m, b ++ a, ⟨hl, hn, hc, fun v hv => ?_⟩, heq⟩
    refine lt_of_le_of_ne (hle v ?_) fun hmv => ?_
    · rw [hab]
      rcases mem_append.mp hv with hv | hv
      · exact mem_append_right a (mem_cons_of_mem m hv)
      · exact mem_append_left _ hv
    · exact (nodup_cons.mp hn).1 (hmv ▸ hv)

/-- **Two lists for every simple cycle.** -/
theorem two_mul_ncard (hsymm : ∀ u v, adj u v → adj v u) (hn : 3 ≤ n) (L : List (List V))
    (hnd : L.Nodup) (hL : ∀ l, l ∈ L ↔ ∃ m t, l = m :: t ∧ Rooted adj n m t) :
    L.length = 2 * (simpleCycles adj n).ncard := by
  classical
  have himage : (↑(L.toFinset.image roundOf) : Set (Set (Cycle V))) =
      simpleCycles adj n := by
    ext C
    rw [Finset.coe_image, Set.mem_image]
    refine ⟨?_, ?_⟩
    · rintro ⟨l, hl, rfl⟩
      obtain ⟨m, t, rfl, hr⟩ := (hL l).mp (mem_toFinset.mp hl)
      exact ⟨((m :: t : List V) : Cycle V), hr.nodup, hr.length, hr.chain, rfl⟩
    · rintro ⟨c, hcn, hcl, hcc, rfl⟩
      obtain ⟨m, t, hr, rfl⟩ := exists_rooted hcn hcl (by omega) hcc
      exact ⟨m :: t, mem_toFinset.mpr ((hL _).mpr ⟨m, t, rfl, hr⟩), rfl⟩
  have hfibre : ∀ C ∈ L.toFinset.image roundOf,
      (L.toFinset.filter fun l => roundOf l = C).card = 2 := by
    intro C hC
    obtain ⟨l, hl, rfl⟩ := Finset.mem_image.mp hC
    obtain ⟨m, t, rfl, hr⟩ := (hL l).mp (mem_toFinset.mp hl)
    have hpair : (L.toFinset.filter fun l => roundOf l = roundOf (m :: t)) =
        {m :: t, m :: t.reverse} := by
      ext l'
      rw [Finset.mem_filter, mem_toFinset, hL, Finset.mem_insert, Finset.mem_singleton]
      refine ⟨?_, ?_⟩
      · rintro ⟨⟨m', t', rfl, hr'⟩, heq⟩
        obtain ⟨rfl, rfl | rfl⟩ := (hr.roundOf_eq_iff hsymm hr').mp heq
        · exact Or.inl rfl
        · exact Or.inr rfl
      · rintro (rfl | rfl)
        · exact ⟨⟨m, t, rfl, hr⟩, rfl⟩
        · have hr' := hr.reverse hsymm
          exact ⟨⟨m, _, rfl, hr'⟩, (hr.roundOf_eq_iff hsymm hr').mpr ⟨rfl, Or.inr rfl⟩⟩
    rw [hpair]
    exact Finset.card_pair fun heq => hr.reverse_ne hn (cons.inj heq).2.symm
  rw [← himage, Set.ncard_coe_finset, ← toFinset_card_of_nodup hnd,
    Finset.card_eq_sum_card_image roundOf, Finset.sum_const_nat hfibre,
    Nat.mul_comm]

end DataStructures.Lib.CountCycles
