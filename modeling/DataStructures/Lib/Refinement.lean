import Mathlib.Data.List.Basic
import Mathlib.Tactic.Common

/-!
# Refinement

An implementation is a function `call` from a state and a call to the result and the state
after it, `none` where the call does something that is not defined.  A specification is a
total function `spec` of the same shape on states of its own, with a condition `legal` on
the calls that may be made.

`Refines call spec legal rep`: where the state `s` represents `t` and the call is legal, the
implementation returns what the specification returns, and represents the same state
afterwards.  `Refines.calls`: so it is for every sequence of calls.
-/

namespace DataStructures.Lib.Refinement

variable {S T A R : Type}

/-- The results of a sequence of calls, and the state after it. -/
def calls (call : S → A → Option (R × S)) : S → List A → Option (List R × S)
  | s, [] => some ([], s)
  | s, a :: as => do
      let (r, s) ← call s a
      let (rs, s) ← calls call s as
      return (r :: rs, s)

/-- The same for a specification. -/
def specCalls (spec : T → A → R × T) : T → List A → List R × T
  | t, [] => ([], t)
  | t, a :: as => ((spec t a).1 :: (specCalls spec (spec t a).2 as).1,
      (specCalls spec (spec t a).2 as).2)

/-- Every call of the sequence is legal where it is made. -/
def AllLegal (spec : T → A → R × T) (legal : T → A → Prop) : T → List A → Prop
  | _, [] => True
  | t, a :: as => legal t a ∧ AllLegal spec legal (spec t a).2 as

/-- **The implementation refines the specification**, by the representation `rep`. -/
structure Refines (call : S → A → Option (R × S)) (spec : T → A → R × T)
    (legal : T → A → Prop) (rep : S → T → Prop) : Prop where
  step : ∀ {s t a}, rep s t → legal t a → ∃ s', call s a = some ((spec t a).1, s') ∧
    rep s' (spec t a).2

variable {call : S → A → Option (R × S)} {spec : T → A → R × T} {legal : T → A → Prop}
  {rep : S → T → Prop} {s : S} {t : T} {as : List A}

/-- **Every sequence of legal calls** returns what the specification says. -/
theorem Refines.calls (h : Refines call spec legal rep) (hs : rep s t)
    (hl : AllLegal spec legal t as) : ∃ s',
      Refinement.calls call s as = some ((specCalls spec t as).1, s') ∧
      rep s' (specCalls spec t as).2 := by
  induction as generalizing s t with
  | nil => exact ⟨s, rfl, hs⟩
  | cons a as ih =>
    obtain ⟨s₁, h₁, hs₁⟩ := h.step hs hl.1
    obtain ⟨s₂, h₂, hs₂⟩ := ih hs₁ hl.2
    refine ⟨s₂, ?_, hs₂⟩
    rw [Refinement.calls, h₁, Option.bind_eq_bind, Option.bind_some]
    dsimp only
    rw [h₂]
    rfl

/-- **Where calls that are not legal are not defined**, a sequence that is defined is legal. -/
theorem Refines.allLegal (h : Refines call spec legal rep)
    (hstop : ∀ {s t a}, rep s t → ¬ legal t a → call s a = none) {rs : List R} {s' : S}
    (hs : rep s t) (hc : Refinement.calls call s as = some (rs, s')) :
    AllLegal spec legal t as := by
  induction as generalizing s t rs s' with
  | nil => trivial
  | cons a as ih =>
    by_cases hl : legal t a
    · obtain ⟨s₁, h₁, hs₁⟩ := h.step hs hl
      rw [Refinement.calls, h₁, Option.bind_eq_bind, Option.bind_some] at hc
      obtain ⟨⟨rs', s₂⟩, h₂, -⟩ := Option.bind_eq_some_iff.mp hc
      exact ⟨hl, ih hs₁ h₂⟩
    · rw [Refinement.calls, hstop hs hl] at hc
      cases hc

/-- Where every call is legal, so is every sequence. -/
theorem allLegal_of_forall (as : List A) (h : ∀ t a, legal t a) : AllLegal spec legal t as := by
  induction as generalizing t with
  | nil => trivial
  | cons a as ih => exact ⟨h t a, ih⟩

end DataStructures.Lib.Refinement
