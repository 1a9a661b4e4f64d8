import Mathlib.Data.List.Nodup

/-!
# Counting in a list without repetitions

How many elements satisfy `p` says how many different ones there are:
`countP_eq_one_iff`, `two_le_countP_iff`.
-/

namespace DataStructures.Lib

variable {β : Type} [DecidableEq β] {p : β → Bool} {l : List β}

theorem countP_erase_add_one {x : β} (hx : x ∈ l) (hp : p x = true) :
    l.countP p = (l.erase x).countP p + 1 := by
  rw [(List.perm_cons_erase hx).countP_eq, List.countP_cons_of_pos hp]

theorem countP_eq_one_iff (hn : l.Nodup) :
    l.countP p = 1 ↔ ∃ x ∈ l, p x = true ∧ ∀ y ∈ l, p y = true → y = x := by
  refine ⟨?_, ?_⟩
  · intro h
    obtain ⟨x, hx, hp⟩ := List.countP_pos_iff.mp (h ▸ Nat.one_pos)
    rw [countP_erase_add_one hx hp, Nat.add_eq_right, List.countP_eq_zero] at h
    refine ⟨x, hx, hp, fun y hy hpy => ?_⟩
    by_contra hne
    exact h y (hn.mem_erase_iff.mpr ⟨hne, hy⟩) hpy
  · intro hm
    obtain ⟨x, hx, hp, hu⟩ := hm
    rw [countP_erase_add_one hx hp, Nat.add_eq_right, List.countP_eq_zero]
    intro y hy hpy
    obtain ⟨hne, hy⟩ := hn.mem_erase_iff.mp hy
    exact hne (hu y hy hpy)

theorem two_le_countP_iff (hn : l.Nodup) :
    2 ≤ l.countP p ↔ ∃ x ∈ l, ∃ y ∈ l, x ≠ y ∧ p x = true ∧ p y = true := by
  refine ⟨?_, ?_⟩
  · intro h
    obtain ⟨x, hx, hp⟩ := List.countP_pos_iff.mp (Nat.lt_of_lt_of_le Nat.two_pos h)
    rw [countP_erase_add_one hx hp] at h
    obtain ⟨y, hy, hpy⟩ := List.countP_pos_iff.mp (Nat.le_of_succ_le_succ h)
    obtain ⟨hne, hy⟩ := hn.mem_erase_iff.mp hy
    exact ⟨x, hx, y, hy, hne.symm, hp, hpy⟩
  · intro hm
    obtain ⟨x, hx, y, hy, hne, hp, hpy⟩ := hm
    have := List.countP_pos_iff.mpr ⟨y, hn.mem_erase_iff.mpr ⟨hne.symm, hy⟩, hpy⟩
    rw [countP_erase_add_one hx hp]
    omega

end DataStructures.Lib
