import Mathlib.Data.List.Infix

/-!
# Common prefixes of lists

`lcp s t` is the length of the longest common prefix of two lists.  `lcp_spec`
splits both lists there: what follows on the two sides does not start alike.

`dropPrefix?_append`: removing `p ++ q` from the front is removing `p` and then
`q`.  `prefix_of_fork`: a common prefix of two lists that fork after `q` is a
prefix of `q`.

`append_cons_inj`: a list is cut at the first occurrence of a letter in one way,
and `replicate_append_inj`: so it is after the letters it begins with.
-/

namespace DataStructures.Lib

variable {α : Type}

/-! ### The longest common prefix -/

section lcp

variable [DecidableEq α]

/-- The length of the longest common prefix. -/
def lcp : List α → List α → Nat
  | a :: s, b :: t => if a = b then lcp s t + 1 else 0
  | _, _ => 0

/-- **Two lists split at their longest common prefix**, after which they differ
or one of them ends. -/
theorem lcp_spec : ∀ s t : List α, ∃ u a b, s = u ++ a ∧ t = u ++ b ∧ u.length = lcp s t ∧
    ∀ x a' y b', a = x :: a' → b = y :: b' → x ≠ y := by
  intro s
  induction s with
  | nil => intro t; exact ⟨[], [], t, rfl, rfl, by simp [lcp], by simp⟩
  | cons c s ih =>
    intro t
    cases t with
    | nil => exact ⟨[], c :: s, [], rfl, rfl, by simp [lcp], by simp⟩
    | cons e t =>
      by_cases hce : c = e
      · subst hce
        obtain ⟨u, a, b, rfl, rfl, hl, hd⟩ := ih t
        exact ⟨c :: u, a, b, rfl, rfl, by simp [lcp, hl], hd⟩
      · refine ⟨[], c :: s, e :: t, rfl, rfl, by simp [lcp, hce], ?_⟩
        intro x a' y b' hx hy
        rw [List.cons.injEq] at hx hy
        rw [← hx.1, ← hy.1]
        exact hce

end lcp

/-! ### Removing prefixes -/

section dropPrefix

variable [BEq α] [LawfulBEq α]

theorem dropPrefix?_eq_some {k p s : List α} : k.dropPrefix? p = some s ↔ k = p ++ s := by
  rw [List.dropPrefix?_eq_some_iff]
  refine ⟨?_, ?_⟩
  · intro h
    obtain ⟨p', rfl, hp⟩ := h
    rw [eq_of_beq hp]
  · intro h
    subst h
    exact ⟨p, rfl, beq_self_eq_true p⟩

theorem dropPrefix?_eq_none {k p : List α} : k.dropPrefix? p = none ↔ ∀ s, k ≠ p ++ s := by
  rw [Option.eq_none_iff_forall_ne_some]
  exact forall_congr' (fun s => not_congr dropPrefix?_eq_some)

@[simp] theorem dropPrefix?_append_self (p s : List α) : (p ++ s).dropPrefix? p = some s :=
  dropPrefix?_eq_some.mpr rfl

theorem dropPrefix?_append (k p q : List α) :
    k.dropPrefix? (p ++ q) = (k.dropPrefix? p).bind (fun s => s.dropPrefix? q) := by
  apply Option.ext
  intro s
  rw [dropPrefix?_eq_some, Option.bind_eq_some_iff]
  refine ⟨?_, ?_⟩
  · intro h
    subst h
    exact ⟨q ++ s, by rw [List.append_assoc, dropPrefix?_append_self], dropPrefix?_append_self q s⟩
  · intro h
    obtain ⟨r, h1, h2⟩ := h
    rw [dropPrefix?_eq_some.mp h1, dropPrefix?_eq_some.mp h2, List.append_assoc]

end dropPrefix

theorem prefix_of_fork {p q s t : List α} {x y : α} (hs : p <+: q ++ x :: s)
    (ht : p <+: q ++ y :: t) (hxy : x ≠ y) : p <+: q := by
  rcases List.prefix_or_prefix_of_prefix hs (List.prefix_append q (x :: s)) with h | h
  · exact h
  · obtain ⟨r, rfl⟩ := h
    cases r with
    | nil => rw [List.append_nil]
    | cons z r =>
      rw [List.prefix_append_right_inj, List.cons_prefix_cons] at hs ht
      exact absurd (hs.1.symm.trans ht.1) hxy

/-! ### Where a list is cut -/

theorem append_cons_inj {c : α} : ∀ {a b r s : List α}, c ∉ a → c ∉ b →
    a ++ c :: r = b ++ c :: s → a = b ∧ r = s := by
  intro a
  induction a with
  | nil =>
    intro b r s _ hb h
    cases b with
    | nil => exact ⟨rfl, (List.cons.inj h).2⟩
    | cons y b => exact absurd ((List.cons.inj h).1 ▸ List.mem_cons_self) hb
  | cons x a ih =>
    intro b r s ha hb h
    cases b with
    | nil => exact absurd ((List.cons.inj h).1 ▸ List.mem_cons_self) ha
    | cons y b =>
      rw [List.cons_append, List.cons_append, List.cons.injEq] at h
      obtain ⟨rfl, h⟩ := h
      rw [List.mem_cons, not_or] at ha hb
      obtain ⟨rfl, rfl⟩ := ih ha.2 hb.2 h
      exact ⟨rfl, rfl⟩

theorem replicate_append_inj {c : α} {r s : List α} (hr : r.head? ≠ some c) (hs : s.head? ≠ some c) :
    ∀ {n m : ℕ}, List.replicate n c ++ r = List.replicate m c ++ s → n = m ∧ r = s := by
  intro n
  induction n with
  | zero =>
    intro m h
    cases m with
    | zero => exact ⟨rfl, h⟩
    | succ m => exact absurd (congrArg List.head? h) hr
  | succ n ih =>
    intro m h
    cases m with
    | zero => exact absurd (congrArg List.head? h).symm hs
    | succ m =>
      rw [List.replicate_succ, List.replicate_succ, List.cons_append, List.cons_append,
        List.cons.injEq] at h
      obtain ⟨rfl, rfl⟩ := ih h.2
      exact ⟨rfl, rfl⟩

end DataStructures.Lib
