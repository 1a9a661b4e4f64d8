import DataStructures.Lib.Runs

/-!
# Runs that come to an end

`CanReach step R Q s`: actions with `R` lead from `s` to a state with `Q`.  Where in every state
with `P` and without `Q` some action keeps `P` and lowers a measure, a state with `Q` can be
reached (`canReach_of_measure`).  `CanReach.trans` puts two stages together.

`sum_update_lt`: a measure that is a sum over threads goes down when one of them lowers its share.
-/

namespace DataStructures.Lib.Runs

section Reach

variable {S A : Type} {step : S → A → Option S} {R : A → Prop} {P Q Q' : S → Prop} {s s' : S}

/-- Actions with `R` can lead from `s` to a state with `Q`. -/
def CanReach (step : S → A → Option S) (R : A → Prop) (Q : S → Prop) (s : S) : Prop :=
  ∃ as s', (∀ a ∈ as, R a) ∧ run step s as = some s' ∧ Q s'

theorem canReach_refl (h : Q s) : CanReach step R Q s :=
  ⟨[], s, fun _ ha => absurd ha List.not_mem_nil, rfl, h⟩

theorem canReach_cons {a : A} (hR : R a) (ha : step s a = some s') (h : CanReach step R Q s') :
    CanReach step R Q s := by
  obtain ⟨as, t, has, hr, ht⟩ := h
  refine ⟨a :: as, t, ?_, ?_, ht⟩
  · intro b hb
    obtain rfl | hb := List.mem_cons.mp hb
    · exact hR
    · exact has b hb
  · rw [run_cons, ha, Option.bind_some, hr]

theorem CanReach.trans (h : CanReach step R Q s) (hnext : ∀ t, Q t → CanReach step R Q' t) :
    CanReach step R Q' s := by
  obtain ⟨as, t, has, hr, ht⟩ := h
  obtain ⟨bs, u, hbs, hr', hu⟩ := hnext t ht
  refine ⟨as ++ bs, u, ?_, run_trans hr hr', hu⟩
  intro a ha
  exact (List.mem_append.mp ha).elim (has a) (hbs a)

/-- **A measure that some action always lowers comes to its end.** -/
theorem canReach_of_measure (μ : S → ℕ)
    (hstep : ∀ s, P s → ¬ Q s → ∃ a s', R a ∧ step s a = some s' ∧ P s' ∧ μ s' < μ s) (hs : P s) :
    CanReach step R (fun s' => P s' ∧ Q s') s := by
  induction hn : μ s using Nat.strong_induction_on generalizing s with
  | h n ih =>
    by_cases hq : Q s
    · exact canReach_refl ⟨hs, hq⟩
    · obtain ⟨a, s', hR, ha, hs', hlt⟩ := hstep s hs hq
      exact canReach_cons hR ha (ih (μ s') (hn ▸ hlt) hs' rfl)

end Reach

section Threads

variable {ι T : Type} [Fintype ι] [DecidableEq ι]

/-- A thread that lowers its share lowers the sum. -/
theorem sum_update_lt (g : T → ℕ) (t : ι → T) (i : ι) (x : T) (h : g x < g (t i)) :
    (∑ j, g (Function.update t i x j)) < ∑ j, g (t j) := by
  have hsum := sum_update g t i x
  omega

end Threads

end DataStructures.Lib.Runs
