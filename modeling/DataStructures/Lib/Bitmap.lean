import Mathlib.Data.BitVec
import Mathlib.Data.List.Perm.Subperm

/-!
# Bits of words and bitmaps

A bitmap is a list of 64-bit words.  Bit `k` is bit `k % 64` of word `k / 64`, and
`ones` lists the bits that are set.  Setting a bit that was clear adds one to their
number, clearing one that was set takes one off (`length_ones_setBit`,
`length_ones_clearBit`).

The first part is about single words: testing, setting and clearing one bit with
shifts and masks, and cutting off the low bits.
-/

namespace DataStructures.Lib

/-! ### One word -/

theorem mask_test {n : Nat} (mask : BitVec n) {b : Nat} (hb : b < n) :
    (mask &&& (1#n <<< b) != 0) = mask.getLsbD b := by
  rw [← BitVec.twoPow_eq, BitVec.and_twoPow]
  cases h : mask.getLsbD b with
  | false => simp
  | true =>
    rw [if_pos rfl, bne_iff_ne]
    intro he
    have := congrArg (fun x : BitVec n => x.getLsbD b) he
    simp [hb] at this

theorem mask_set {n : Nat} (mask : BitVec n) {b c : Nat} (hc : c < n) :
    (mask ||| (1#n <<< b)).getLsbD c = (mask.getLsbD c || decide (b = c)) := by
  rw [← BitVec.twoPow_eq, BitVec.getLsbD_or, BitVec.getLsbD_twoPow]
  by_cases h : b = c
  · subst h; simp [hc]
  · simp [h]

theorem mask_clr {n : Nat} (mask : BitVec n) {b c : Nat} (hc : c < n) :
    (mask &&& ~~~(1#n <<< b)).getLsbD c = (mask.getLsbD c && !decide (b = c)) := by
  rw [← BitVec.twoPow_eq, BitVec.getLsbD_and, BitVec.getLsbD_not, BitVec.getLsbD_twoPow]
  by_cases h : b = c
  · subst h; simp [hc]
  · simp [h, hc]

/-- The word with the `k` lowest bits set. -/
theorem getLsbD_low {k : Nat} (hk : k < 64) (i : Nat) :
    ((1#64 <<< k) - 1).getLsbD i = decide (i < k) := by
  have hpos := Nat.two_pow_pos k
  have hlt : 2 ^ k < 2 ^ 64 := Nat.pow_lt_pow_right (by decide) hk
  have hs : (1#64 <<< k) = BitVec.ofNat 64 (2 ^ k) := by
    rw [← BitVec.twoPow_eq]
    apply BitVec.eq_of_toNat_eq
    rw [BitVec.toNat_twoPow, BitVec.toNat_ofNat]
  have hm : (1#64 <<< k) - 1 = BitVec.ofNat 64 (2 ^ k - 1) := by
    apply BitVec.eq_of_toNat_eq
    rw [hs, BitVec.toNat_sub, BitVec.toNat_ofNat, BitVec.toNat_ofNat]
    change (2 ^ 64 - 1 + 2 ^ k % 2 ^ 64) % 2 ^ 64 = (2 ^ k - 1) % 2 ^ 64
    rw [Nat.mod_eq_of_lt hlt]
    omega
  rw [hm, BitVec.getLsbD_ofNat, Nat.testBit_two_pow_sub_one]
  by_cases hi : i < k
  · simp [hi, show i < 64 by omega]
  · simp [hi]

/-- **Masking off the `k` low bits.** -/
theorem and_not_low {n k : Nat} {y m : BitVec n} (hm : ∀ i, m.getLsbD i = decide (i < k)) :
    y &&& ~~~m = (y >>> k) <<< k := by
  apply BitVec.eq_of_getLsbD_eq
  intro i hi
  rw [BitVec.getLsbD_and, BitVec.getLsbD_not, hm, BitVec.getLsbD_shiftLeft,
    BitVec.getLsbD_ushiftRight]
  by_cases hk : i < k
  · simp [hk]
  · simp [hk, hi, show k + (i - k) = i by omega]

theorem toNat_and_not_low {n k : Nat} {y m : BitVec n} (hm : ∀ i, m.getLsbD i = decide (i < k)) :
    (y &&& ~~~m).toNat = y.toNat / 2 ^ k * 2 ^ k := by
  have hle : y.toNat / 2 ^ k * 2 ^ k ≤ y.toNat := Nat.div_mul_le_self _ _
  rw [and_not_low hm, BitVec.toNat_shiftLeft, BitVec.toNat_ushiftRight, Nat.shiftRight_eq_div_pow,
    Nat.shiftLeft_eq]
  exact Nat.mod_eq_of_lt (lt_of_le_of_lt hle y.isLt)

/-- **The lowest clear bit** of a word that is not all ones. -/
theorem ctz_not_spec {x : BitVec 64} (hx : ~~~x ≠ 0) :
    (~~~x).ctz.toNat < 64 ∧ x.getLsbD (~~~x).ctz.toNat = false := by
  have hlt : (~~~x).ctz.toNat < 64 := BitVec.lt_def.mp (BitVec.ctz_lt_iff_ne_zero.mpr hx)
  have hbit := BitVec.getLsbD_true_ctz_of_ne_zero hx
  rw [BitVec.getLsbD_not, Bool.and_eq_true, Bool.not_eq_true'] at hbit
  exact ⟨hlt, hbit.2⟩

/-- A clear bit is no lower than the lowest clear bit. -/
theorem ctz_not_le {x : BitVec 64} {i : Nat} (hi : i < 64) (hx : x.getLsbD i = false) :
    (~~~x).ctz.toNat ≤ i := by
  by_contra hlt
  have hbit := BitVec.getLsbD_false_of_lt_ctz (x := ~~~x) (by omega : i < (~~~x).ctz.toNat)
  rw [BitVec.getLsbD_not, hx, decide_eq_true hi] at hbit
  exact absurd hbit (by decide)

/-! ### Bitmaps -/

/-- Bit `k` of a bitmap. -/
def bitAt (bitmap : List (BitVec 64)) (k : Nat) : Bool := (bitmap.getD (k / 64) 0).getLsbD (k % 64)

/-- The bits that are set. -/
def ones (bitmap : List (BitVec 64)) : List Nat :=
  (List.range (64 * bitmap.length)).filter (bitAt bitmap)

/-- The bitmap with bit `k` set. -/
def setBit (bitmap : List (BitVec 64)) (k : Nat) : List (BitVec 64) :=
  bitmap.set (k / 64) (bitmap.getD (k / 64) 0 ||| (1#64 <<< (k % 64)))

/-- The bitmap with bit `k` cleared. -/
def clearBit (bitmap : List (BitVec 64)) (k : Nat) : List (BitVec 64) :=
  bitmap.set (k / 64) (bitmap.getD (k / 64) 0 &&& ~~~(1#64 <<< (k % 64)))

variable {bitmap : List (BitVec 64)} {w : BitVec 64} {i b k : Nat}

theorem bitAt_of_le (h : 64 * bitmap.length ≤ k) : bitAt bitmap k = false := by
  rw [bitAt, List.getD_eq_getElem?_getD, List.getElem?_eq_none (by omega), Option.getD_none]
  exact BitVec.getLsbD_zero

theorem bitAt_lt (h : bitAt bitmap k = true) : k < 64 * bitmap.length := by
  by_contra hge
  rw [bitAt_of_le (by omega)] at h
  exact absurd h (by decide)

theorem mem_ones : k ∈ ones bitmap ↔ bitAt bitmap k = true := by
  rw [ones, List.mem_filter, List.mem_range]
  exact ⟨fun h => h.2, fun h => ⟨bitAt_lt h, h⟩⟩

theorem nodup_ones (bitmap : List (BitVec 64)) : (ones bitmap).Nodup := List.nodup_range.filter _

theorem bitAt_replicate (n k : Nat) : bitAt (List.replicate n 0) k = false := by
  rw [bitAt, List.getD_eq_getElem?_getD, List.getElem?_replicate]
  split <;> exact BitVec.getLsbD_zero

theorem ones_replicate (n : Nat) : ones (List.replicate n 0) = [] := by
  rw [List.eq_nil_iff_forall_not_mem]
  intro k hk
  rw [mem_ones, bitAt_replicate] at hk
  exact absurd hk (by decide)

theorem bitAt_word (hw : bitmap[i]? = some w) (hb : b < 64) :
    bitAt bitmap (i * 64 + b) = w.getLsbD b := by
  rw [bitAt, show (i * 64 + b) / 64 = i by omega, show (i * 64 + b) % 64 = b by omega,
    List.getD_eq_getElem?_getD, hw, Option.getD_some]

/-- The bits after one word has been replaced. -/
theorem bitAt_update {w' : BitVec 64} (hi : i < bitmap.length) :
    bitAt (bitmap.set i w') k =
      if k / 64 = i then w'.getLsbD (k % 64) else bitAt bitmap k := by
  rw [bitAt, bitAt, List.getD_eq_getElem?_getD, List.getD_eq_getElem?_getD]
  by_cases h : k / 64 = i
  · rw [if_pos h, h, List.getElem?_set_self hi, Option.getD_some]
  · rw [if_neg h, List.getElem?_set_ne (Ne.symm h)]

@[simp] theorem length_setBit : (setBit bitmap k).length = bitmap.length := List.length_set

@[simp] theorem length_clearBit : (clearBit bitmap k).length = bitmap.length := List.length_set

/-- Writing a word with one more bit sets a bit. -/
theorem set_or_eq (hw : bitmap[i]? = some w) (hb : b < 64) :
    bitmap.set i (w ||| (1#64 <<< b)) = setBit bitmap (i * 64 + b) := by
  rw [setBit, show (i * 64 + b) / 64 = i by omega, show (i * 64 + b) % 64 = b by omega,
    List.getD_eq_getElem?_getD, hw, Option.getD_some]

/-- **Setting a bit** changes no other one. -/
theorem bitAt_setBit (hk : k < 64 * bitmap.length) (j : Nat) :
    bitAt (setBit bitmap k) j = (bitAt bitmap j || decide (j = k)) := by
  rw [setBit, bitAt_update (by omega)]
  split
  next h =>
    have hjk : k % 64 = j % 64 ↔ j = k := by omega
    rw [mask_set _ (Nat.mod_lt j (by decide)), bitAt, h, decide_eq_decide.mpr hjk]
  next h =>
    have hjk : j ≠ k := fun he => h (by rw [he])
    rw [decide_eq_false hjk, Bool.or_false]

/-- **Clearing a bit** changes no other one. -/
theorem bitAt_clearBit (hk : k < 64 * bitmap.length) (j : Nat) :
    bitAt (clearBit bitmap k) j = (bitAt bitmap j && !decide (j = k)) := by
  rw [clearBit, bitAt_update (by omega)]
  split
  next h =>
    have hjk : k % 64 = j % 64 ↔ j = k := by omega
    rw [mask_clr _ (Nat.mod_lt j (by decide)), bitAt, h, decide_eq_decide.mpr hjk]
  next h =>
    have hjk : j ≠ k := fun he => h (by rw [he])
    rw [decide_eq_false hjk, Bool.not_false, Bool.and_true]

/-- Two bitmaps that differ in bit `k` only, where it is set in the second. -/
theorem length_ones_insert {bitmap' : List (BitVec 64)} (hk : bitAt bitmap k = false)
    (h : ∀ j, bitAt bitmap' j = (bitAt bitmap j || decide (j = k))) :
    (ones bitmap').length = (ones bitmap).length + 1 := by
  have hp : (ones bitmap').Perm (k :: ones bitmap) := by
    rw [List.perm_ext_iff_of_nodup (nodup_ones _)]
    · intro j
      rw [mem_ones, h, List.mem_cons, mem_ones, Bool.or_eq_true, decide_eq_true_eq]
      exact Or.comm
    · rw [List.nodup_cons, mem_ones, hk]
      exact ⟨by decide, nodup_ones _⟩
  rw [hp.length_eq, List.length_cons]

theorem length_ones_setBit (hk : k < 64 * bitmap.length) (hc : bitAt bitmap k = false) :
    (ones (setBit bitmap k)).length = (ones bitmap).length + 1 :=
  length_ones_insert hc (bitAt_setBit hk)

theorem length_ones_clearBit (hc : bitAt bitmap k = true) :
    (ones (clearBit bitmap k)).length + 1 = (ones bitmap).length := by
  have hk := bitAt_lt hc
  refine (length_ones_insert (k := k) ?_ (fun j => ?_)).symm
  · rw [bitAt_clearBit hk, decide_eq_true rfl, Bool.not_true, Bool.and_false]
  · rw [bitAt_clearBit hk]
    by_cases h : j = k
    · rw [h, hc, decide_eq_true rfl, Bool.or_true]
    · rw [decide_eq_false h, Bool.not_false, Bool.and_true, Bool.or_false]

/-- **A bitmap with fewer than `n` bits set has a clear one below `n`.** -/
theorem exists_clear {n : Nat} (hn : (ones bitmap).length < n) : ∃ k < n, bitAt bitmap k = false := by
  by_contra hall
  push Not at hall
  have hsub : List.range n ⊆ ones bitmap := by
    intro k hk
    rw [mem_ones]
    exact Bool.eq_true_of_not_eq_false (hall k (List.mem_range.mp hk))
  have hle := (List.nodup_range.subperm hsub).length_le
  rw [List.length_range] at hle
  omega

end DataStructures.Lib
