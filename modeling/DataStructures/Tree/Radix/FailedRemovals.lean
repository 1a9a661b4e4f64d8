import DataStructures.Tree.Radix.DeadPaths

/-!
# Removals that fail

A node that is compacted gets the prefix of its child appended, which takes a `realloc`.  The datum
is gone by then.  If the `realloc` is refused, the prefix of the node has been overwritten with
NULL, and the error is handed up to the caller.

`failedRemove_iff`: so a call of `radix_tree_remove` that fails changes nothing exactly if the key is
not stored, or there is memory for all the nodes that are merged.
-/

namespace DataStructures.Radix

open Lib Outcomes RadixTreeNode

variable {V : Type}

/-- The node has a prefix, which is not empty. -/
def Prefixed (t : RadixTreeNode V) : Prop := ∃ c q, t.pfx = some (c :: q)

/-- **In a good tree every node below the root has a prefix.** -/
theorem Good.prefixed {t : RadixTreeNode V} (hg : Good t) : Below Prefixed t := by
  induction t with
  | null => exact trivial
  | node p d ch ih =>
    intro b
    refine ⟨fun hne => ?_, ih b (hg b).2⟩
    rcases (hg b).1 with hnull | ⟨c, q, hp, -⟩
    · exact absurd hnull hne
    · exact ⟨c, q, hp⟩

theorem Unnamed.not_prefixed {t : RadixTreeNode V} (h : Unnamed t) : ¬ Below Prefixed t := by
  induction h with
  | @here t b hne hp =>
    cases t with
    | null => exact absurd rfl hne
    | node p d ch =>
      intro hb
      obtain ⟨c, q, hs⟩ := (hb b).1 hne
      exact absurd (hp.symm.trans hs) (Option.some_ne_none _).symm
  | @deeper t b _ ih =>
    cases t with
    | null => exact ih
    | node p d ch => exact fun hb => ih (hb b).2

/-- **A call of `radix_tree_remove` returns, and if it fails**, every lookup is as before the call
and no node below the root has lost its prefix. -/
def FailsCleanly (o : Outcomes) (t : RadixTree V) (key : List Byte) : Prop :=
  ∃ ret t' o', radixTreeRemove o t (some key) = some (ret, t', o') ∧
    (ret < 0 → (∀ k, radixTreeLookup t' (some k) = radixTreeLookup t (some k)) ∧ Below Prefixed t')

/-- A removal that fails for want of memory loses a prefix. -/
theorem IsRoot.lost {t t' : RadixTree V} (h : IsRoot t) (hl : Loses t t') : ¬ Below Prefixed t' :=
  (hl.resolve_left (fun hp => hp.1 h.pfx)).not_prefixed

theorem IsRoot.failsCleanly_iff {t : RadixTree V} (h : IsRoot t) {key : List Byte} (hk : key ≠ [])
    (o : Outcomes) : FailsCleanly o t key ↔ find t key = none ∨ o.Succeed (reallocs t key) := by
  obtain ⟨ret, t', o', hr, hres⟩ := remove_outcomes h hk o
  cases hres with
  | done ho hs =>
    exact iff_of_true ⟨0, t', _, hr, fun hneg => absurd hneg (Int.lt_irrefl 0)⟩ (Or.inr ho)
  | refused hneg hnone =>
    exact iff_of_true ⟨ret, t, o, hr, fun _ => ⟨fun _ => rfl, h.good.prefixed⟩⟩ (Or.inl hnone)
  | failed hneg ho hsome hl =>
    refine iff_of_false ?_ ?_
    · rintro ⟨ret₁, t₁, o₁, hr₁, hclean⟩
      rw [hr, Option.some.injEq, Prod.mk.injEq, Prod.mk.injEq] at hr₁
      obtain ⟨rfl, rfl, rfl⟩ := hr₁
      exact h.lost hl (hclean hneg).2
    · rintro (hnone | hok)
      · rw [hnone] at hsome
        exact Bool.false_ne_true hsome
      · exact ho hok

/-- **When a failed removal changes nothing.**  After a run whose allocations succeeded it does so
for a key that is not stored, and for one that is stored if every `realloc` on the way back up
succeeds; otherwise a node is left without its prefix. -/
theorem failedRemove_iff (t : RadixTree V) (m : List Byte → Option V)
    (h : Run (fun _ _ => True) t m) (key : List Byte) (hk : key ≠ []) (o : Outcomes) :
    FailsCleanly o t key ↔ m key = none ∨ o.Succeed (reallocs t key) := by
  obtain ⟨hroot, rfl⟩ := h.inv
  exact hroot.failsCleanly_iff hk o

/-! ### A removal without memory -/

theorem failedRemove_iff_forkTree :
    FailsCleanly (fun _ => false) forkTree [charA, charA] ↔
      record forkCalls (fun _ => none) [charA, charA] = none ∨
        Outcomes.Succeed (fun _ => false) (reallocs forkTree [charA, charA]) :=
  failedRemove_iff forkTree _ (forkTree_run _) [charA, charA] (List.cons_ne_nil _ _) (fun _ => false)

/-- The removal of `aa` merges the node of `a` with the one of `ab`.  Without memory it fails, and
a later lookup of `aba` fails an assertion. -/
theorem failedRemove_loses :
    Run (fun _ _ => True) forkTree (record forkCalls (fun _ => none)) ∧
      ¬ FailsCleanly (fun _ => false) forkTree [charA, charA] ∧
      radixTreeLookup forkTree (some [charA, charB, charA]) = some (some 2) ∧
      (radixTreeRemove (fun _ => false) forkTree (some [charA, charA])).map
        (fun r => (r.1, radixTreeLookup r.2.1 (some [charA, charB, charA]))) = some (-4, none) := by
  refine ⟨forkTree_run _, ?_, by decide +kernel, by decide +kernel⟩
  have hone : reallocs forkTree [charA, charA] = 1 := by decide +kernel
  have hstored : find forkTree [charA, charA] = some 1 := by decide +kernel
  rw [(forkTree_run (fun _ _ => True)).inv.1.failsCleanly_iff (List.cons_ne_nil _ _), hone, hstored]
  rintro (hnone | ho)
  · exact Option.some_ne_none 1 hnone
  · exact Bool.false_ne_true (ho 0 Nat.zero_lt_one)

end DataStructures.Radix
