import DataStructures.Lib.CountCycles
import Mathlib.Combinatorics.SimpleGraph.Paths

/-!
# Cycles as lists and cycles as walks

A simple graph `G` has the edges of `adj` but for the self-loops.  `exists_isCycle_iff`: a walk that is a
cycle of `n` edges is there if and only if a list goes round a simple cycle of `n` vertices.
-/

namespace DataStructures.Lib.CountCycles

open List SimpleGraph

variable {V : Type} {adj : V → V → Prop} {G : SimpleGraph V} {n : Nat} {m v x : V} {t : List V}

/-- The vertices of a walk that is a cycle, but for the end. -/
theorem support_of_isCycle {c : G.Walk v v} (hc : c.IsCycle) :
    ∃ t, c.support = v :: (t ++ [v]) ∧ (v :: t).Nodup ∧ t.length + 1 = c.length := by
  have hne : c.support.tail ≠ [] := by
    intro hnil
    have hlen := congrArg length hnil
    rw [length_tail, Walk.length_support, length_nil] at hlen
    exact absurd hc.three_le_length (by omega)
  have hlast : c.support.tail.getLast hne = v := by
    rw [getLast_tail, Walk.getLast_support]
  have htail : c.support.tail = c.support.tail.dropLast ++ [v] := by
    conv_lhs => rw [← dropLast_append_getLast hne, hlast]
  refine ⟨c.support.tail.dropLast, ?_, ?_, ?_⟩
  · rw [← htail, Walk.cons_tail_support]
  · have hnd := hc.support_nodup
    rw [htail] at hnd
    exact (perm_append_singleton v _).nodup_iff.mp hnd
  · have hlen := hc.three_le_length
    rw [length_dropLast, length_tail, Walk.length_support]
    omega

/-- A list without repetitions along the edges is the support of a walk. -/
theorem exists_walk_of_isChain (hadj : ∀ u v, u ≠ v → adj u v → G.Adj u v)
    (hc : List.IsChain adj (x :: (t ++ [m]))) (hnd : (x :: (t ++ [m])).Nodup) :
    ∃ p : G.Walk x m, p.support = x :: (t ++ [m]) := by
  induction t generalizing x with
  | nil =>
    have hne : x ≠ m := fun heq => (nodup_cons.mp hnd).1 (heq ▸ mem_singleton_self m)
    exact ⟨.cons (hadj x m hne (isChain_pair.mp hc)) .nil, rfl⟩
  | cons y t ih =>
    obtain ⟨hxy, hc⟩ := isChain_cons_cons.mp hc
    obtain ⟨hx, hnd⟩ := nodup_cons.mp hnd
    obtain ⟨p, hp⟩ := ih hc hnd
    have hne : x ≠ y := fun heq => hx (heq ▸ mem_cons_self)
    exact ⟨.cons (hadj x y hne hxy) p, congrArg (x :: ·) hp⟩

variable [LinearOrder V]

/-- **A list that goes round** is a walk that is a cycle. -/
theorem Rooted.exists_isCycle (h : Rooted adj n m t) (hn : 3 ≤ n)
    (hadj : ∀ u v, u ≠ v → adj u v → G.Adj u v) : ∃ c : G.Walk m m, c.IsCycle ∧ c.length = n := by
  have hlen := h.length
  obtain ⟨x, t, rfl⟩ := exists_cons_of_length_eq_add_one (show t.length = (n - 2) + 1 by omega)
  have hnodup : (x :: (t ++ [m])).Nodup :=
    (perm_append_singleton m (x :: t)).nodup_iff.mpr h.nodup
  obtain ⟨hmx, hchain⟩ := isChain_cons_cons.mp h.chain
  obtain ⟨p, hp⟩ := exists_walk_of_isChain hadj hchain hnodup
  have hpath : p.IsPath := (Walk.isPath_def p).mpr (hp ▸ hnodup)
  have hplen : p.length + 1 = n := by
    rw [← Walk.length_support, hp, ← hlen]
    exact congrArg (· + 1) (length_append.trans (congrArg (t.length + ·) (length_singleton (a := m))))
  have hne : m ≠ x := fun heq => (nodup_cons.mp h.nodup).1 (heq ▸ mem_cons_self)
  refine ⟨.cons (hadj m x hne hmx) p, (Walk.cons_isCycle_iff p _).mpr ⟨hpath, fun hedge => ?_⟩, hplen⟩
  rw [Sym2.eq_swap] at hedge
  have hone := hpath.length_eq_one_of_mem_edges hedge
  omega

/-- **Walks that are cycles**, and lists that go round. -/
theorem exists_isCycle_iff (hn : 3 ≤ n) (hadj : ∀ u v, G.Adj u v ↔ u ≠ v ∧ adj u v) :
    (∃ (v : V) (c : G.Walk v v), c.IsCycle ∧ c.length = n) ↔ ∃ m t, Rooted adj n m t := by
  refine ⟨?_, ?_⟩
  · rintro ⟨v, c, hc, hlen⟩
    obtain ⟨t, hsupp, hnd, ht⟩ := support_of_isCycle hc
    have hchain : List.IsChain adj (v :: (t ++ [v])) := by
      rw [← hsupp]
      exact c.isChain_adj_support.imp fun u w huw => ((hadj u w).mp huw).2
    obtain ⟨m, t', hr, -⟩ := exists_rooted (c := ((v :: t : List V) : Cycle V)) hnd
      (show (v :: t).length = n from ht.trans hlen) (by omega) hchain
    exact ⟨m, t', hr⟩
  · rintro ⟨m, t, hr⟩
    exact ⟨m, hr.exists_isCycle hn fun u v hne he => (hadj u v).mpr ⟨hne, he⟩⟩

end DataStructures.Lib.CountCycles
