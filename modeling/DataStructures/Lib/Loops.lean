import Mathlib.Data.List.Nodup
import Mathlib.Tactic.Common

/-!
# Loops over a list

A loop is a `List.foldlM`; it may fail.  `loop_spec`: what holds at the start for the empty list
and is handed on by each round, from the elements that have been gone through to one more, holds
of the whole list at the end.  `search_spec`: a loop that passes over the rest once it has found
something finds it if it is there.  `bounded_spec`: a loop that counts, and fails when the count
passes a bound.
-/

namespace DataStructures.Lib

variable {A S : Type} {f : S → A → Option S} {l : List A} {s : S}

/-- What holds of the elements that have been gone through and of the next one. -/
theorem forall_mem_concat {P : A → Prop} {done : List A} {x : A} (hdone : ∀ y ∈ done, P y) (hx : P x) :
    ∀ y ∈ done ++ [x], P y :=
  List.forall_mem_append.mpr ⟨hdone, List.forall_mem_singleton.mpr hx⟩

/-- **The rule of the loop.** -/
theorem loop_spec (Inv : List A → S → Prop) (h0 : Inv [] s)
    (hstep : ∀ done x todo, l = done ++ x :: todo → ∀ s, Inv done s →
      ∃ s', f s x = some s' ∧ Inv (done ++ [x]) s') :
    ∃ s', l.foldlM f s = some s' ∧ Inv l s' := by
  have hall : ∀ todo done, l = done ++ todo → ∀ s, Inv done s →
      ∃ s', todo.foldlM f s = some s' ∧ Inv l s' := by
    intro todo
    induction todo with
    | nil =>
      intro done hl s hs
      rw [List.append_nil] at hl
      exact ⟨s, rfl, hl ▸ hs⟩
    | cons x todo ih =>
      intro done hl s hs
      obtain ⟨s₁, hr, hs₁⟩ := hstep done x todo hl s hs
      obtain ⟨s', hrun, hs'⟩ := ih (done ++ [x]) (by rw [hl, List.append_assoc]; rfl) s₁ hs₁
      exact ⟨s', by rw [List.foldlM_cons, hr]; exact hrun, hs'⟩
  exact hall l [] rfl s h0

/-- **The rule of the search.** -/
theorem search_spec {f : Bool → A → Option Bool} {P : A → Prop}
    (hfound : ∀ x ∈ l, f true x = some true)
    (hnot : ∀ x ∈ l, ∃ b, f false x = some b ∧ (b = true ↔ P x)) (found : Bool) :
    ∃ b, l.foldlM f found = some b ∧ (b = true ↔ found = true ∨ ∃ x ∈ l, P x) := by
  induction l generalizing found with
  | nil =>
    refine ⟨found, rfl, (or_iff_left ?_).symm⟩
    rintro ⟨x, hx, -⟩
    exact absurd hx List.not_mem_nil
  | cons x l ih =>
    have ih' := ih (fun y hy => hfound y (List.mem_cons_of_mem x hy))
      (fun y hy => hnot y (List.mem_cons_of_mem x hy))
    have hx : ∃ b, f found x = some b ∧ (b = true ↔ found = true ∨ P x) := by
      cases found with
      | true => exact ⟨true, hfound x List.mem_cons_self, iff_of_true rfl (Or.inl rfl)⟩
      | false =>
        obtain ⟨b, hr, hb⟩ := hnot x List.mem_cons_self
        exact ⟨b, hr, hb.trans (or_iff_right Bool.false_ne_true).symm⟩
    obtain ⟨b, hr, hb⟩ := hx
    obtain ⟨b', hrun, hb'⟩ := ih' b
    refine ⟨b', by rw [List.foldlM_cons, hr]; exact hrun, ?_⟩
    rw [hb', hb, or_assoc, List.exists_mem_cons_iff]

/-- **The rule of a loop that counts** up to a bound, beside a value `marks` that does not depend on
the count. -/
theorem bounded_spec {M : Type} {f : Int × M → A → Option (Int × M)} {b : Int}
    (count : List A → Int) (marks : List A → M) (h0 : count [] ≤ b)
    (hmono : ∀ done x todo, l = done ++ x :: todo → count done ≤ count (done ++ [x]))
    (hstep : ∀ done x todo, l = done ++ x :: todo → count done ≤ b →
      f (count done, marks done) x =
        if count (done ++ [x]) ≤ b then some (count (done ++ [x]), marks (done ++ [x])) else none) :
    l.foldlM f (count [], marks []) = if count l ≤ b then some (count l, marks l) else none := by
  have hgrow : ∀ todo done, l = done ++ todo → count done ≤ count l := by
    intro todo
    induction todo with
    | nil =>
      intro done hl
      have hdone : done = l := by rw [hl, List.append_nil]
      exact Int.le_of_eq (congrArg count hdone)
    | cons x todo ih =>
      intro done hl
      have hrest := ih (done ++ [x]) (by rw [hl, List.append_assoc]; rfl)
      exact Int.le_trans (hmono done x todo hl) hrest
  have hall : ∀ todo done, l = done ++ todo → count done ≤ b →
      todo.foldlM f (count done, marks done) =
        if count l ≤ b then some (count l, marks l) else none := by
    intro todo
    induction todo with
    | nil =>
      intro done hl hb
      rw [List.append_nil] at hl
      subst hl
      rw [List.foldlM_nil, if_pos hb]
      rfl
    | cons x todo ih =>
      intro done hl hb
      have hl' : l = (done ++ [x]) ++ todo := by rw [hl, List.append_assoc]; rfl
      rw [List.foldlM_cons, hstep done x todo hl hb]
      by_cases hx : count (done ++ [x]) ≤ b
      · rw [if_pos hx]
        exact ih (done ++ [x]) hl' hx
      · have hover : ¬ count l ≤ b := fun hle => hx (Int.le_trans (hgrow todo _ hl') hle)
        rw [if_neg hx, if_neg hover]
        rfl
  exact hall l [] rfl h0

end DataStructures.Lib
