import Mathlib.Data.Nat.Bitwise
import Mathlib.Data.Set.Insert
import Mathlib.Data.Set.Lattice
import Mathlib.Order.CompletePartialOrder
import Mathlib.Tactic.Common
import Mathlib.Tactic.Ring

/-!
# Dyadic blocks

A block of order `k` and index `i` is the run `[i * 2^k, (i + 1) * 2^k)`.  Two
blocks that meet are nested (`Block.has_of_overlap`), a block is the union of
its two halves, and the two halves of one block are each other's buddy.

`Tiles n T` says that the blocks of `T` cover `[0, 2^n)` exactly.  A tiling is
kept when a block is replaced by its halves (`Tiles.split`) and when two buddies
are replaced by their parent (`Tiles.merge`).

`Coalesced n F` says that no two buddies are both in `F`.  Everything an
allocator needs of it is `Tiles.exists_above`: in a tiling by `F` and `A` with
`F` coalesced, a block that meets nothing of `A` lies inside a block of `F`.  So
`F` is the set of the largest blocks that avoid `A` (`Tiles.mem_iff`), and `A`
alone determines it (`Tiles.free_unique`).
-/

namespace DataStructures.Lib

/-- A dyadic block. -/
structure Block where
  order : Nat
  index : Nat
deriving DecidableEq, Repr

namespace Block

/-- The block contains the point `p`. -/
def Has (b : Block) (p : Nat) : Prop := p / 2 ^ b.order = b.index

instance (b : Block) (p : Nat) : Decidable (b.Has p) := inferInstanceAs (Decidable (_ = _))

/-- The first point of the block. -/
def start (b : Block) : Nat := b.index * 2 ^ b.order

/-- The two blocks have a point in common. -/
def Overlap (b c : Block) : Prop := ∃ p, b.Has p ∧ c.Has p

/-- The block lies in `[0, 2^n)`. -/
def Within (n : Nat) (b : Block) : Prop := b.order ≤ n ∧ b.index < 2 ^ (n - b.order)

/-- The other half of the same parent. -/
def buddy (b : Block) : Block := ⟨b.order, b.index ^^^ 1⟩

def parent (b : Block) : Block := ⟨b.order + 1, b.index / 2⟩

def left (b : Block) : Block := ⟨b.order - 1, 2 * b.index⟩

def right (b : Block) : Block := ⟨b.order - 1, 2 * b.index + 1⟩

@[simp] theorem buddy_order (b : Block) : b.buddy.order = b.order := rfl
@[simp] theorem parent_order (b : Block) : b.parent.order = b.order + 1 := rfl
@[simp] theorem left_order (b : Block) : b.left.order = b.order - 1 := rfl
@[simp] theorem right_order (b : Block) : b.right.order = b.order - 1 := rfl

theorem has_iff {b : Block} {p : Nat} : b.Has p ↔ b.start ≤ p ∧ p < b.start + 2 ^ b.order := by
  have h : 0 < 2 ^ b.order := Nat.two_pow_pos _
  rw [Has, start, Nat.div_eq_iff h]
  have : (b.index + 1) * 2 ^ b.order = b.index * 2 ^ b.order + 2 ^ b.order := by ring
  omega

theorem has_start (b : Block) : b.Has b.start := by
  rw [has_iff]
  have : 0 < 2 ^ b.order := Nat.two_pow_pos _
  omega

theorem Overlap.symm {b c : Block} (h : b.Overlap c) : c.Overlap b := by
  obtain ⟨p, hb, hc⟩ := h
  exact ⟨p, hc, hb⟩

theorem overlap_self (b : Block) : b.Overlap b := ⟨b.start, b.has_start, b.has_start⟩

theorem index_eq_of_has {b c : Block} {p : Nat} (ho : b.order = c.order) (hb : b.Has p)
    (hc : c.Has p) : b = c := by
  cases b
  cases c
  simp only [Has] at ho hb hc
  subst ho
  rw [← hb, ← hc]

/-- **Two blocks that meet are nested**: the smaller lies in the larger. -/
theorem has_of_overlap {b c : Block} (h : b.Overlap c) (ho : b.order ≤ c.order) {p : Nat}
    (hp : b.Has p) : c.Has p := by
  obtain ⟨q, hb, hc⟩ := h
  unfold Has at *
  have hpow : 2 ^ c.order = 2 ^ b.order * 2 ^ (c.order - b.order) := by
    rw [← Nat.pow_add, Nat.add_sub_cancel' ho]
  rw [hpow, ← Nat.div_div_eq_div_mul] at hc ⊢
  rw [hp, ← hb, hc]

/-- A block that meets a smaller block meets everything that one contains. -/
theorem Overlap.of_nested {b c d : Block} (h : b.Overlap c) (ho : b.order ≤ c.order)
    (hd : d.Overlap b) : d.Overlap c := by
  obtain ⟨p, h1, h2⟩ := hd
  exact ⟨p, h1, has_of_overlap h ho h2⟩

theorem eq_of_overlap {b c : Block} (h : b.Overlap c) (ho : b.order = c.order) : b = c := by
  obtain ⟨p, hb, hc⟩ := h
  exact index_eq_of_has ho hb hc

/-! ### Halves and buddies -/

theorem parent_has (b : Block) (p : Nat) : b.parent.Has p ↔ p / 2 ^ b.order / 2 = b.index / 2 := by
  rw [Has, parent_order, Nat.pow_succ, ← Nat.div_div_eq_div_mul, parent]

theorem xor_one (i : Nat) : i ^^^ 1 = if i % 2 = 0 then i + 1 else i - 1 := by
  split
  · next h => exact Nat.xor_one_of_even (Nat.even_iff.mpr h)
  · next h => exact Nat.xor_one_of_odd (Nat.odd_iff.mpr (by omega))

theorem buddy_buddy (b : Block) : b.buddy.buddy = b := by
  cases b
  simp [buddy]

theorem buddy_ne (b : Block) : b.buddy ≠ b := by
  intro h
  have := congrArg index h
  simp only [buddy, xor_one] at this
  split at this <;> omega

theorem parent_buddy (b : Block) : b.buddy.parent = b.parent := by
  simp only [parent, buddy, xor_one]
  split <;> congr 1 <;> omega

/-- **A parent is the union of its two halves.** -/
theorem parent_has_iff (b : Block) (p : Nat) : b.parent.Has p ↔ b.Has p ∨ b.buddy.Has p := by
  rw [parent_has]
  simp only [Has, buddy, xor_one]
  split <;> omega

theorem left_parent {b : Block} (h : 0 < b.order) : b.left.parent = b := by
  cases b
  simp only [left, parent] at *
  congr 1 <;> omega

theorem left_buddy (b : Block) : b.left.buddy = b.right := by
  simp only [left, right, buddy, xor_one]
  rw [if_pos (by omega)]

theorem within_parent {n : Nat} {b : Block} (h : Within n b) (ho : b.order < n) :
    Within n b.parent := by
  refine ⟨ho, ?_⟩
  have h2 := h.2
  have hp : 2 ^ (n - b.order) = 2 ^ (n - (b.order + 1)) * 2 := by
    rw [← Nat.pow_succ]; congr 1; omega
  rw [parent_order]
  show b.index / 2 < _
  omega

theorem within_of_parent {n : Nat} {b : Block} (h : Within n b.parent) : Within n b := by
  have h1 := h.1
  have h2 := h.2
  rw [parent_order] at h1 h2
  change b.index / 2 < _ at h2
  have hp : 2 ^ (n - b.order) = 2 ^ (n - (b.order + 1)) * 2 := by
    rw [← Nat.pow_succ]; congr 1; omega
  exact ⟨by omega, by omega⟩

theorem within_buddy {n : Nat} {b : Block} (h : Within n b) (ho : b.order < n) :
    Within n b.buddy :=
  within_of_parent (by rw [parent_buddy]; exact within_parent h ho)

theorem has_lt {n : Nat} {b : Block} (h : Within n b) {p : Nat} (hp : b.Has p) : p < 2 ^ n := by
  have h1 := h.1
  have h2 := h.2
  rw [← hp, Nat.div_lt_iff_lt_mul (Nat.two_pow_pos _), ← Nat.pow_add] at h2
  rwa [Nat.sub_add_cancel h1] at h2

theorem top_has {n p : Nat} (hp : p < 2 ^ n) : (⟨n, 0⟩ : Block).Has p := Nat.div_eq_of_lt hp

theorem parent_overlap_iff {b c : Block} : b.parent.Overlap c ↔ b.Overlap c ∨ b.buddy.Overlap c := by
  refine ⟨?_, ?_⟩
  · intro hx
    obtain ⟨p, hp, hc⟩ := hx
    rcases (parent_has_iff b p).mp hp with h | h
    · exact Or.inl ⟨p, h, hc⟩
    · exact Or.inr ⟨p, h, hc⟩
  · intro hx
    rcases hx with ⟨p, hp, hc⟩ | ⟨p, hp, hc⟩
    · exact ⟨p, (parent_has_iff b p).mpr (Or.inl hp), hc⟩
    · exact ⟨p, (parent_has_iff b p).mpr (Or.inr hp), hc⟩

/-- A block that meets one half and is larger than it meets the other half. -/
theorem Overlap.buddy_of_lt {b c : Block} (h : b.Overlap c) (ho : b.order < c.order) :
    b.buddy.Overlap c := by
  have hp : b.parent.Overlap c := parent_overlap_iff.mpr (Or.inl h)
  refine ⟨b.buddy.start, b.buddy.has_start, has_of_overlap hp ho ?_⟩
  exact (parent_has_iff b _).mpr (Or.inr b.buddy.has_start)

end Block

open Block

/-! ### Tilings -/

/-- The blocks of `T` cover `[0, 2^n)`, and no two of them meet. -/
structure Tiles (n : Nat) (T : Set Block) : Prop where
  within : ∀ b ∈ T, Within n b
  cover : ∀ p, p < 2 ^ n → ∃ b ∈ T, b.Has p
  unique : ∀ b ∈ T, ∀ c ∈ T, b.Overlap c → b = c

/-- No block below order `n` is in `F` together with its buddy. -/
def Coalesced (n : Nat) (F : Set Block) : Prop := ∀ b ∈ F, b.order < n → b.buddy ∉ F

namespace Tiles

variable {n : Nat} {T F A : Set Block} {b c : Block}

theorem top (n : Nat) : Tiles n {⟨n, 0⟩} := by
  refine ⟨?_, fun p hp => ⟨⟨n, 0⟩, rfl, top_has hp⟩, ?_⟩
  · rintro b rfl
    exact ⟨le_rfl, by simp⟩
  · rintro b rfl c rfl _
    rfl

/-- **Replacing two buddies by their parent keeps a tiling.** -/
theorem merge (h : Tiles n T) (hb : b ∈ T) (hc : b.buddy ∈ T) (ho : b.order < n) :
    Tiles n (insert b.parent (T \ {b, b.buddy})) := by
  have hnot : ∀ c ∈ T \ {b, b.buddy}, ¬ b.parent.Overlap c := by
    rintro c ⟨hcT, hne⟩ hov
    rcases parent_overlap_iff.mp hov with hov | hov
    · exact hne (Or.inl (h.unique b hb c hcT hov).symm)
    · exact hne (Or.inr (h.unique _ hc c hcT hov).symm)
  refine ⟨?_, ?_, ?_⟩
  · rintro c (rfl | hcT)
    · exact within_parent (h.within b hb) ho
    · exact h.within c hcT.1
  · intro p hp
    obtain ⟨c, hcT, hcp⟩ := h.cover p hp
    by_cases hcb : c ∈ ({b, b.buddy} : Set Block)
    · refine ⟨b.parent, Set.mem_insert _ _, (parent_has_iff b p).mpr ?_⟩
      rcases hcb with rfl | rfl
      · exact Or.inl hcp
      · exact Or.inr hcp
    · exact ⟨c, Set.mem_insert_of_mem _ ⟨hcT, hcb⟩, hcp⟩
  · rintro c (rfl | hcT) d (rfl | hdT) hov
    · rfl
    · exact absurd hov (hnot d hdT)
    · exact absurd hov.symm (hnot c hcT)
    · exact h.unique c hcT.1 d hdT.1 hov

/-- **Replacing a block by its two halves keeps a tiling.** -/
theorem split (h : Tiles n T) (hb : b.parent ∈ T) :
    Tiles n (insert b (insert b.buddy (T \ {b.parent}))) := by
  have hw := h.within _ hb
  have hnot : ∀ c ∈ T \ {b.parent}, ¬ b.Overlap c ∧ ¬ b.buddy.Overlap c := by
    rintro c ⟨hcT, hne⟩
    constructor
    · exact fun hov => hne (h.unique _ hb c hcT (parent_overlap_iff.mpr (Or.inl hov))).symm
    · exact fun hov => hne (h.unique _ hb c hcT (parent_overlap_iff.mpr (Or.inr hov))).symm
  have hbb : ¬ b.Overlap b.buddy := fun hov => buddy_ne b (eq_of_overlap hov rfl).symm
  refine ⟨?_, ?_, ?_⟩
  · rintro c (rfl | rfl | hcT)
    · exact within_of_parent hw
    · exact within_of_parent (by rw [parent_buddy]; exact hw)
    · exact h.within c hcT.1
  · intro p hp
    obtain ⟨c, hcT, hcp⟩ := h.cover p hp
    by_cases hcb : c = b.parent
    · subst hcb
      rcases (parent_has_iff b p).mp hcp with hp' | hp'
      · exact ⟨b, by simp, hp'⟩
      · exact ⟨b.buddy, by simp, hp'⟩
    · exact ⟨c, Or.inr (Or.inr ⟨hcT, hcb⟩), hcp⟩
  · rintro c (rfl | rfl | hcT) d (rfl | rfl | hdT) hov
    · rfl
    · exact absurd hov hbb
    · exact absurd hov (hnot d hdT).1
    · exact absurd hov.symm hbb
    · rfl
    · exact absurd hov (hnot d hdT).2
    · exact absurd hov.symm (hnot c hcT).1
    · exact absurd hov.symm (hnot c hcT).2
    · exact h.unique c hcT.1 d hdT.1 hov

/-- **A block that avoids `A` lies in a block of `F`**, as long as no two buddies
inside it are both in `F`.  By induction on its order: if both halves were
blocks of `F` they would be two free buddies. -/
theorem exists_above (h : Tiles n (F ∪ A)) (hc : Within n c) (hA : ∀ a ∈ A, ¬ c.Overlap a)
    (hF : ∀ f ∈ F, f.order < c.order → f.Overlap c → f.buddy ∉ F) :
    ∃ f ∈ F, c.order ≤ f.order ∧ c.Overlap f := by
  obtain ⟨k, i⟩ := c
  induction k generalizing i with
  | zero =>
    obtain ⟨f, hf, hp⟩ := h.cover _ (has_lt hc (has_start _))
    rcases hf with hf | hf
    · exact ⟨f, hf, Nat.zero_le _, _, has_start _, hp⟩
    · exact absurd ⟨_, has_start _, hp⟩ (hA f hf)
  | succ k ih =>
    have hpl : (left ⟨k + 1, i⟩).parent = ⟨k + 1, i⟩ := left_parent (Nat.succ_pos k)
    have hpr : (right ⟨k + 1, i⟩).parent = ⟨k + 1, i⟩ := by rw [← left_buddy, parent_buddy, hpl]
    have half : ∀ d : Block, d.order = k → d.parent = ⟨k + 1, i⟩ →
        ∃ f ∈ F, (k + 1 ≤ f.order ∧ Overlap ⟨k + 1, i⟩ f) ∨ f = d := by
      rintro ⟨k', j⟩ hk' hd
      obtain rfl : k = k' := hk'.symm
      have hup : ∀ {f : Block}, Overlap ⟨k, j⟩ f → Overlap ⟨k + 1, i⟩ f :=
        fun hov => hd ▸ parent_overlap_iff.mpr (Or.inl hov)
      obtain ⟨f, hf, ho, hov⟩ := ih j (within_of_parent (hd ▸ hc)) (fun a ha hov => hA a ha (hup hov))
        (fun f hf ho hov => hF f hf (Nat.lt_succ_of_lt ho) (hup hov.symm).symm)
      refine ⟨f, hf, ?_⟩
      by_cases hk : f.order = k
      · exact Or.inr (eq_of_overlap hov hk.symm).symm
      · exact Or.inl ⟨by simp only at ho; omega, hup hov⟩
    obtain ⟨f, hf, hfl | rfl⟩ := half (left ⟨k + 1, i⟩) rfl hpl
    · exact ⟨f, hf, hfl⟩
    obtain ⟨g, hg, hgr | rfl⟩ := half (right ⟨k + 1, i⟩) rfl hpr
    · exact ⟨g, hg, hgr⟩
    refine absurd (left_buddy _ ▸ hg) (hF _ hf (Nat.lt_succ_self k) ?_)
    have := parent_overlap_iff.mpr (Or.inl (overlap_self (left ⟨k + 1, i⟩)))
    rw [hpl] at this
    exact this.symm

/-- **The blocks of a coalesced `F` are the largest blocks that avoid `A`.** -/
theorem mem_iff (h : Tiles n (F ∪ A)) (hd : Disjoint F A) (hF : Coalesced n F) :
    b ∈ F ↔ Within n b ∧ (∀ a ∈ A, ¬ b.Overlap a) ∧
      (b.order < n → ∃ a ∈ A, b.parent.Overlap a) := by
  have hFA : ∀ f ∈ F, ∀ a ∈ A, ¬ f.Overlap a := by
    intro f hf a ha hov
    have := h.unique f (Or.inl hf) a (Or.inr ha) hov
    exact Set.disjoint_left.mp hd hf (this ▸ ha)
  have habove : ∀ c, Within n c → (∀ a ∈ A, ¬ c.Overlap a) → ∃ f ∈ F, c.order ≤ f.order ∧ c.Overlap f :=
    fun c hc hA => h.exists_above hc hA
      (fun f hf ho _ => hF f hf (lt_of_lt_of_le ho hc.1))
  refine ⟨?_, ?_⟩
  · intro hb
    refine ⟨h.within b (Or.inl hb), hFA b hb, fun ho => ?_⟩
    by_contra hno
    push Not at hno
    obtain ⟨f, hf, hle, hov⟩ := habove _ (within_parent (h.within b (Or.inl hb)) ho) hno
    have hbf : b.Overlap f := by
      refine ⟨b.start, b.has_start, has_of_overlap hov hle ?_⟩
      exact (parent_has_iff b _).mpr (Or.inl b.has_start)
    have := h.unique b (Or.inl hb) f (Or.inl hf) hbf
    rw [← this] at hle
    simp at hle
  · intro hx
    obtain ⟨hw, hA, hup⟩ := hx
    obtain ⟨f, hf, hle, hov⟩ := habove b hw hA
    rcases Nat.eq_or_lt_of_le hle with he | hlt
    · rw [eq_of_overlap hov he]; exact hf
    · obtain ⟨a, ha, hoa⟩ := hup (lt_of_lt_of_le hlt (h.within f (Or.inl hf)).1)
      refine absurd ?_ (hFA f hf a ha)
      exact (Overlap.of_nested (parent_overlap_iff.mpr (Or.inl hov)) hlt hoa.symm).symm

/-- **`A` determines a coalesced `F`.** -/
theorem free_unique {F' : Set Block} (h : Tiles n (F ∪ A)) (hd : Disjoint F A) (hF : Coalesced n F)
    (h' : Tiles n (F' ∪ A)) (hd' : Disjoint F' A) (hF' : Coalesced n F') : F = F' := by
  ext b
  rw [h.mem_iff hd hF, h'.mem_iff hd' hF']

theorem coalesced_top (n : Nat) : Coalesced n {⟨n, 0⟩} := by
  rintro b rfl ho
  exact absurd ho (lt_irrefl n)

end Tiles

end DataStructures.Lib
