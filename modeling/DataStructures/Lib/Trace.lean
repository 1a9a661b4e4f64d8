import Mathlib.Data.List.Basic
import Mathlib.Tactic.Common

/-!
# Computations that log what they access

`Traced E α`: what a computation has logged, and its result, `none` where it has done something
that is not defined.  What it has logged until then stays logged, and nothing comes after.

`Within P x`: everything that `x` logs has the property `P`.  `within_bind`: a sequence does so
where its first part does and, if that has a result, the rest does.  `within_foldlM` is the rule of
the loop over a list.  `Ends P Q x`: besides, `x` has a result, with the property `Q`.

`length_log_bind_le` and `length_log_foldlM_le` bound how much is logged.
-/

namespace DataStructures.Lib

/-- A log and a result. -/
structure Traced (E α : Type) where
  log : List E
  result : Option α

namespace Traced

variable {E α β : Type}

/-- One computation after the other. -/
def andThen (x : Traced E α) (f : α → Traced E β) : Traced E β :=
  match x.result with
  | none => ⟨x.log, none⟩
  | some a => ⟨x.log ++ (f a).log, (f a).result⟩

instance : Monad (Traced E) where
  pure a := ⟨[], some a⟩
  bind := andThen

/-- Logging an access. -/
def access (e : E) : Traced E Unit := ⟨[e], some ()⟩

/-- A computation that logs nothing. -/
def lift (x : Option α) : Traced E α := ⟨[], x⟩

variable {x : Traced E α} {f : α → Traced E β} {P : E → Prop}

theorem bind_of_some {a : α} (h : x.result = some a) :
    x >>= f = ⟨x.log ++ (f a).log, (f a).result⟩ := by
  change x.andThen f = _
  rw [andThen, h]

theorem bind_of_none (h : x.result = none) : x >>= f = ⟨x.log, none⟩ := by
  change x.andThen f = _
  rw [andThen, h]

@[simp] theorem result_pure (a : α) : (pure a : Traced E α).result = some a := rfl

@[simp] theorem result_access (e : E) : (access e).result = some () := rfl

@[simp] theorem result_lift (x : Option α) : (lift x : Traced E α).result = x := rfl

/-- **Results** are those of the computation without its log. -/
@[simp] theorem result_bind : (x >>= f).result = x.result.bind (fun a => (f a).result) := by
  cases h : x.result with
  | none => rw [bind_of_none h, Option.bind_none]
  | some a => rw [bind_of_some h, Option.bind_some]

theorem result_ite {p : Prop} [Decidable p] {x y : Traced E α} :
    (if p then x else y).result = if p then x.result else y.result :=
  apply_ite Traced.result p x y

/-- Everything that is logged has the property. -/
def Within (P : E → Prop) (x : Traced E α) : Prop := ∀ e ∈ x.log, P e

@[simp] theorem within_pure (a : α) : Within P (pure a : Traced E α) :=
  fun _ he => absurd he List.not_mem_nil

@[simp] theorem within_lift (x : Option α) : Within P (lift x : Traced E α) :=
  fun _ he => absurd he List.not_mem_nil

@[simp] theorem within_access {e : E} : Within P (access e) ↔ P e :=
  ⟨fun h => h e List.mem_cons_self, fun h _ he => List.mem_singleton.mp he ▸ h⟩

/-- **A sequence.** -/
theorem within_bind :
    Within P (x >>= f) ↔ Within P x ∧ ∀ a, x.result = some a → Within P (f a) := by
  cases h : x.result with
  | none =>
    rw [bind_of_none h]
    exact ⟨fun hx => ⟨hx, fun a ha => by cases ha⟩, fun hx => hx.1⟩
  | some a =>
    rw [bind_of_some h]
    constructor
    · intro hx
      refine ⟨fun e he => hx e (List.mem_append_left _ he), fun b hb e he => ?_⟩
      rw [Option.some.injEq] at hb
      subst hb
      exact hx e (List.mem_append_right _ he)
    · rintro ⟨hx, hf⟩ e he
      rcases List.mem_append.mp he with he | he
      · exact hx e he
      · exact hf a rfl e he

/-- A sequence whose first part logs nothing. -/
theorem within_lift_bind {a : α} {x : Option α} (hx : x = some a) :
    Within P (lift x >>= f) ↔ Within P (f a) := by
  rw [within_bind]
  refine ⟨fun h => h.2 a hx, fun h => ⟨within_lift x, fun b hb => ?_⟩⟩
  obtain rfl := Option.some.inj (hx.symm.trans hb)
  exact h

theorem within_access_bind {e : E} {f : Unit → Traced E β} :
    Within P (access e >>= f) ↔ P e ∧ Within P (f ()) := by
  rw [within_bind, within_access]
  exact and_congr_right (fun _ => ⟨fun h => h () rfl, fun h _ _ => h⟩)

theorem mem_log_bind_left {e : E} (he : e ∈ x.log) : e ∈ (x >>= f).log := by
  cases h : x.result with
  | none => rwa [bind_of_none h]
  | some a =>
    rw [bind_of_some h]
    exact List.mem_append_left _ he

/-- What comes after a first part that has a result is logged. -/
theorem mem_log_bind_right {a : α} {e : E} (h : x.result = some a) (he : e ∈ (f a).log) :
    e ∈ (x >>= f).log := by
  rw [bind_of_some h]
  exact List.mem_append_right _ he

theorem mem_log_access_bind {e : E} {f : Unit → Traced E β} : e ∈ (access e >>= f).log :=
  mem_log_bind_left List.mem_cons_self

/-! ### Computations that end -/

/-- What is logged has the property `P`, and there is a result, with the property `Q`. -/
structure Ends (P : E → Prop) (Q : α → Prop) (x : Traced E α) : Prop where
  within : Within P x
  result : ∃ a, x.result = some a ∧ Q a

section Ends

variable {Q : α → Prop} {R : β → Prop} {a : α}

theorem ends_pure (h : Q a) : Ends P Q (pure a) := ⟨within_pure a, a, rfl, h⟩

theorem ends_lift {x : Option α} (hx : x = some a) (h : Q a) : Ends P Q (lift x) :=
  ⟨within_lift x, a, hx, h⟩

theorem Ends.mono {Q' : α → Prop} (hx : Ends P Q x) (h : ∀ a, Q a → Q' a) : Ends P Q' x :=
  ⟨hx.within, hx.result.imp fun a ha => ⟨ha.1, h a ha.2⟩⟩

theorem Ends.bind (hx : Ends P Q x) (hf : ∀ a, Q a → Ends P R (f a)) : Ends P R (x >>= f) := by
  obtain ⟨hwithin, a, ha, hq⟩ := hx
  obtain ⟨hwithin', b, hb, hr⟩ := hf a hq
  refine ⟨within_bind.mpr ⟨hwithin, fun a' ha' => ?_⟩, b, ?_, hr⟩
  · obtain rfl := Option.some.inj (ha.symm.trans ha')
    exact hwithin'
  · rw [result_bind, ha, Option.bind_some, hb]

theorem ends_access_bind {e : E} {f : Unit → Traced E β} (he : P e) (hf : Ends P R (f ())) :
    Ends P R (access e >>= f) :=
  Ends.bind (Q := fun _ => True) ⟨within_access.mpr he, (), rfl, trivial⟩ (fun _ _ => hf)

end Ends

/-! ### Loops -/

variable {A S : Type} {body : S → A → Traced E S} {l : List A} {s : S}

theorem result_foldlM (l : List A) (s : S) :
    (l.foldlM body s).result = l.foldlM (fun s x => (body s x).result) s := by
  induction l generalizing s with
  | nil => rfl
  | cons x l ih =>
    rw [List.foldlM_cons, List.foldlM_cons, result_bind]
    exact congrArg _ (funext ih)

/-- **The rule of the loop**: each round logs what it may and hands the invariant on. -/
theorem within_foldlM (Inv : List A → S → Prop) (h0 : Inv [] s)
    (hstep : ∀ done x todo, l = done ++ x :: todo → ∀ s, Inv done s →
      Within P (body s x) ∧ ∀ s', (body s x).result = some s' → Inv (done ++ [x]) s') :
    Within P (l.foldlM body s) := by
  have hall : ∀ todo done, l = done ++ todo → ∀ s, Inv done s → Within P (todo.foldlM body s) := by
    intro todo
    induction todo with
    | nil => exact fun _ _ s _ => within_pure s
    | cons x todo ih =>
      intro done hl s hs
      obtain ⟨hx, hnext⟩ := hstep done x todo hl s hs
      rw [List.foldlM_cons, within_bind]
      refine ⟨hx, fun s' hs' => ih (done ++ [x]) ?_ s' (hnext s' hs')⟩
      rw [hl, List.append_assoc]
      rfl
  exact hall l [] rfl s h0

/-! ### How much is logged -/

/-- **A sequence** logs what its first part does and, if that has a result, what the rest does. -/
theorem length_log_bind_le {n : Nat} (h : ∀ a, x.result = some a → (f a).log.length ≤ n) :
    (x >>= f).log.length ≤ x.log.length + n := by
  cases hx : x.result with
  | none =>
    rw [bind_of_none hx]
    exact Nat.le_add_right _ _
  | some a =>
    rw [bind_of_some hx, List.length_append]
    exact Nat.add_le_add_left (h a hx) _

/-- What is made of a result logs nothing. -/
theorem length_log_map_le (g : α → β) : (x >>= fun a => pure (g a)).log.length ≤ x.log.length :=
  length_log_bind_le (n := 0) (fun _ _ => Nat.le_refl 0)

/-- **A loop** whose rounds keep an invariant and log at most `n` events each. -/
theorem length_log_foldlM_le {n : Nat} (Inv : S → Prop) (h0 : Inv s)
    (hstep : ∀ s x, Inv s → (body s x).log.length ≤ n ∧ ∀ s', (body s x).result = some s' → Inv s') :
    (l.foldlM body s).log.length ≤ l.length * n := by
  induction l generalizing s with
  | nil => exact Nat.zero_le _
  | cons x l ih =>
    obtain ⟨hx, hnext⟩ := hstep s x h0
    rw [List.foldlM_cons, List.length_cons, Nat.succ_mul]
    have hle : (body s x >>= fun s' => l.foldlM body s').log.length ≤ (body s x).log.length + l.length * n :=
      length_log_bind_le (fun s' hs' => ih (hnext s' hs'))
    omega

end Traced

end DataStructures.Lib
