import Mathlib.Algebra.Order.BigOperators.Group.Finset
import Mathlib.Data.Fintype.BigOperators

/-!
# Runs

A system is a function `step` that says what an action does to a state, `none` where
the action cannot be taken there.  `run step s as` is the state after the actions
`as`, `Reachable step s₀ s` that some actions lead from `s₀` to `s`, `Along step P s as`
that `P` holds in every state on the way, `Each step R s as` that `R` holds of every step,
and `tally step d s as` adds up what `d` says of the single steps.

What one step preserves a run preserves (`run_invariant`), so it holds in every reachable
state (`Reachable.invariant`); a potential that each step lowers by what `d` says bounds
the tally (`tally_add_le`).  Where the state has an entry for every thread, `sum_update`
says what a sum over all threads becomes when one of them moves.
-/

namespace DataStructures.Lib.Runs

section Runs

variable {S A : Type} (step : S → A → Option S)

/-- The state after the actions `as`. -/
def run (s : S) (as : List A) : Option S := as.foldlM step s

/-- Some actions lead from `s₀` to `s`. -/
def Reachable (s₀ s : S) : Prop := ∃ as, run step s₀ as = some s

/-- `P` holds in every state of the run, the first and the last included. -/
def Along (P : S → Prop) : S → List A → Prop
  | s, [] => P s
  | s, a :: as => P s ∧ ∀ s', step s a = some s' → Along P s' as

/-- `R` holds of every step of the run. -/
def Each (R : S → A → S → Prop) : S → List A → Prop
  | _, [] => True
  | s, a :: as => ∀ s', step s a = some s' → R s a s' ∧ Each R s' as

/-- The sum of `d` over the steps of the run. -/
def tally {M : Type} [AddMonoid M] (d : S → A → S → M) : S → List A → M
  | _, [] => 0
  | s, a :: as => (step s a).elim 0 (fun s' => d s a s' + tally d s' as)

variable {step} {s₀ s s' s'' : S} {a : A} {as bs : List A} {P Q : S → Prop}

@[simp] theorem run_nil : run step s [] = some s := rfl

@[simp] theorem run_cons : run step s (a :: as) = (step s a).bind (fun s' => run step s' as) := by
  rw [run, List.foldlM_cons]
  rfl

theorem run_append : run step s (as ++ bs) = (run step s as).bind (fun s' => run step s' bs) := by
  rw [run, List.foldlM_append]
  rfl

theorem run_cons_eq (h : run step s (a :: as) = some s'') :
    ∃ s', step s a = some s' ∧ run step s' as = some s'' := by
  rw [run_cons, Option.bind_eq_some_iff] at h
  exact h

theorem run_append_eq (h : run step s (as ++ bs) = some s'') :
    ∃ s', run step s as = some s' ∧ run step s' bs = some s'' := by
  rw [run_append, Option.bind_eq_some_iff] at h
  exact h

theorem run_concat (h : run step s as = some s') (ha : step s' a = some s'') :
    run step s (as ++ [a]) = some s'' := by
  rw [run_append, h, Option.bind_some, run_cons, ha]
  rfl

theorem run_trans (h : run step s as = some s') (h' : run step s' bs = some s'') :
    run step s (as ++ bs) = some s'' := by
  rw [run_append, h, Option.bind_some, h']

/-- A run cannot go on with an action that cannot be taken. -/
theorem run_stuck (h : run step s as = some s') (ha : step s' a = none) (bs : List A) :
    run step s (as ++ a :: bs) = none := by
  rw [run_append, h, Option.bind_some, run_cons, ha, Option.bind_none]

namespace Reachable

theorem refl (step : S → A → Option S) (s : S) : Reachable step s s := ⟨[], rfl⟩

theorem tail (h : Reachable step s₀ s) (ha : step s a = some s') : Reachable step s₀ s' := by
  obtain ⟨as, h⟩ := h
  exact ⟨as ++ [a], run_concat h ha⟩

theorem trans (h : Reachable step s₀ s) (ha : Runs.run step s as = some s') :
    Reachable step s₀ s' := by
  obtain ⟨bs, h⟩ := h
  exact ⟨bs ++ as, run_trans h ha⟩

end Reachable

/-- **What a step preserves, a run preserves.** -/
theorem run_invariant (hstep : ∀ {s a s'}, P s → step s a = some s' → P s') (hs : P s)
    (h : run step s as = some s') : P s' := by
  induction as generalizing s with
  | nil => exact Option.some.inj h ▸ hs
  | cons a as ih =>
    obtain ⟨t, ha, ht⟩ := run_cons_eq h
    exact ih (hstep hs ha) ht

/-- **What holds at the start and is preserved by every step holds in every reachable
state.** -/
theorem Reachable.invariant (hstep : ∀ {s a s'}, P s → step s a = some s' → P s') (h₀ : P s₀)
    (h : Reachable step s₀ s) : P s := by
  obtain ⟨as, h⟩ := h
  exact run_invariant hstep h₀ h

/-! ### Every state of a run -/

theorem Along.head (h : Along step P s as) : P s := by
  cases as with
  | nil => exact h
  | cons a as => exact h.1

theorem Along.last (h : Along step P s as) (hr : run step s as = some s') : P s' := by
  induction as generalizing s with
  | nil => exact Option.some.inj hr ▸ h
  | cons a as ih =>
    obtain ⟨t, ha, ht⟩ := run_cons_eq hr
    exact ih (h.2 t ha) ht

theorem Along.drop (h : Along step P s (as ++ bs)) (hr : run step s as = some s') :
    Along step P s' bs := by
  induction as generalizing s with
  | nil => exact Option.some.inj hr ▸ h
  | cons a as ih =>
    obtain ⟨t, ha, ht⟩ := run_cons_eq hr
    exact ih (h.2 t ha) ht

/-- What a step preserves holds all along, also beside what is known of the run. -/
theorem Along.and_of_step (hstep : ∀ {s a s'}, P s → P s' → Q s → step s a = some s' → Q s')
    (h : Along step P s as) (hs : Q s) : Along step (fun s => P s ∧ Q s) s as := by
  induction as generalizing s with
  | nil => exact ⟨h, hs⟩
  | cons a as ih =>
    refine ⟨⟨h.1, hs⟩, ?_⟩
    intro t ht
    exact ih (h.2 t ht) (hstep h.1 (h.2 t ht).head hs ht)

theorem Along.cons (hs : P s) (ha : step s a = some s') (h : Along step P s' as) :
    Along step P s (a :: as) :=
  ⟨hs, fun _ ht => Option.some.inj (ha.symm.trans ht) ▸ h⟩

/-- A property that does not hold all along fails at some moment. -/
theorem along_or_exists (step : S → A → Option S) (P : S → Prop) (s : S) (as : List A) : Along step P s as ∨
    ∃ bs cs t, as = bs ++ cs ∧ run step s bs = some t ∧ ¬ P t := by
  induction as generalizing s with
  | nil =>
    by_cases hs : P s
    · exact Or.inl hs
    · exact Or.inr ⟨[], [], s, rfl, rfl, hs⟩
  | cons a as ih =>
    by_cases hs : P s
    · cases ha : step s a with
      | none => exact Or.inl ⟨hs, fun t ht => absurd (ha.symm.trans ht) (by simp)⟩
      | some s' =>
        obtain h | ⟨bs, cs, t, rfl, ht, hnot⟩ := ih s'
        · exact Or.inl (.cons hs ha h)
        · refine Or.inr ⟨a :: bs, cs, t, rfl, ?_, hnot⟩
          rw [run_cons, ha, Option.bind_some, ht]
    · exact Or.inr ⟨[], a :: as, s, rfl, rfl, hs⟩

/-! ### Every step of a run -/

section Each

variable {R R' : S → A → S → Prop}

/-- A step of the run. -/
theorem Each.at (h : Each step R s (as ++ a :: bs)) (hr : run step s as = some s')
    (ha : step s' a = some s'') : R s' a s'' := by
  induction as generalizing s with
  | nil =>
    obtain rfl := Option.some.inj hr
    exact (h s'' ha).1
  | cons b as ih =>
    obtain ⟨t, hb, ht⟩ := run_cons_eq hr
    exact ih (h t hb).2 ht

theorem Each.cons (ha : step s a = some s') (h : R s a s') (hrest : Each step R s' as) :
    Each step R s (a :: as) := by
  intro t ht
  obtain rfl := Option.some.inj (ha.symm.trans ht)
  exact ⟨h, hrest⟩

theorem Each.tail (h : Each step R s (a :: as)) (ha : step s a = some s') : Each step R s' as :=
  (h s' ha).2

/-- What a step with `R` preserves, and what it gives of that step. -/
theorem Each.imp (hstep : ∀ {s a s'}, P s → step s a = some s' → R s a s' → P s' ∧ R' s a s')
    (hs : P s) (h : Each step R s as) : Each step R' s as := by
  induction as generalizing s with
  | nil => exact trivial
  | cons a as ih =>
    intro t ht
    obtain ⟨hfirst, hrest⟩ := h t ht
    obtain ⟨hnext, hR'⟩ := hstep hs ht hfirst
    exact ⟨hR', ih hnext hrest⟩

end Each

/-! ### Sums over the steps of a run -/

section Tally

variable {M : Type} [AddMonoid M] {d : S → A → S → M}

theorem tally_cons (ha : step s a = some s') :
    tally step d s (a :: as) = d s a s' + tally step d s' as := by
  rw [tally, ha]
  rfl

theorem tally_append (hr : run step s as = some s') :
    tally step d s (as ++ bs) = tally step d s as + tally step d s' bs := by
  induction as generalizing s with
  | nil => rw [List.nil_append, tally, zero_add, Option.some.inj hr]
  | cons a as ih =>
    obtain ⟨t, ha, ht⟩ := run_cons_eq hr
    rw [List.cons_append, tally_cons ha, tally_cons ha, ih ht, add_assoc]

/-- A quantity that every step changes by `d` has changed by the tally. -/
theorem tally_eq (f : S → M)
    (hstep : ∀ {s a s'}, P s → P s' → step s a = some s' → f s' = f s + d s a s')
    (h : Along step P s as) (hr : run step s as = some s') :
    f s' = f s + tally step d s as := by
  induction as generalizing s with
  | nil => rw [tally, add_zero, Option.some.inj hr]
  | cons a as ih =>
    obtain ⟨t, ha, ht⟩ := run_cons_eq hr
    rw [tally_cons ha, ih (h.2 t ha) ht, hstep h.1 (h.2 t ha).head ha, add_assoc]

end Tally

/-- **A potential that pays for every step bounds the tally.** -/
theorem tally_add_le {d : S → A → S → ℕ} (f : S → ℕ)
    (hstep : ∀ {s a s'}, P s → step s a = some s' → d s a s' + f s' ≤ f s)
    (h : Along step P s as) (hr : run step s as = some s') : tally step d s as + f s' ≤ f s := by
  induction as generalizing s with
  | nil => rw [tally, Nat.zero_add, Option.some.inj hr]
  | cons a as ih =>
    obtain ⟨t, ha, ht⟩ := run_cons_eq hr
    have hrest := ih (h.2 t ha) ht
    have hfirst := hstep h.1 ha
    rw [tally_cons ha]
    omega

end Runs

/-! ### One thread moves -/

section Threads

variable {ι T : Type} [Fintype ι] [DecidableEq ι]

/-- What the threads make together when thread `i` becomes `x`. -/
theorem sum_update {M : Type} [AddCommMonoid M] (g : T → M) (t : ι → T) (i : ι) (x : T) :
    (∑ j, g (Function.update t i x j)) + g (t i) = (∑ j, g (t j)) + g x := by
  have hi := Finset.mem_univ i
  rw [← Finset.add_sum_erase _ _ hi, ← Finset.add_sum_erase _ (fun j => g (t j)) hi,
    Function.update_self]
  have hrest : (∑ j ∈ Finset.univ.erase i, g (Function.update t i x j)) =
      ∑ j ∈ Finset.univ.erase i, g (t j) := by
    refine Finset.sum_congr rfl ?_
    intro j hj
    rw [Function.update_of_ne (Finset.ne_of_mem_erase hj)]
  rw [hrest, add_right_comm, add_comm (g x), add_right_comm]

omit [DecidableEq ι] in
/-- The share of one thread. -/
theorem le_sum (g : T → ℕ) (t : ι → T) (i : ι) : g (t i) ≤ ∑ j, g (t j) :=
  Finset.single_le_sum (fun j _ => Nat.zero_le (g (t j))) (Finset.mem_univ i)

omit [DecidableEq ι] in
/-- The shares of two threads. -/
theorem add_le_sum (g : T → ℕ) (t : ι → T) {i j : ι} (hij : i ≠ j) :
    g (t i) + g (t j) ≤ ∑ k, g (t k) := by
  classical
  rw [← Finset.sum_pair hij (f := fun k => g (t k))]
  exact Finset.sum_le_sum_of_subset (Finset.subset_univ _)

end Threads

end DataStructures.Lib.Runs
