/-
RedGrapes/Lib/LowBit.lean

The lowest set bit of a word and masks of consecutive bits.

`v &&& -v` has exactly the lowest set bit of `v`: below that bit `v` is zero, and
above it `-v` is the complement of `v` (`exists_and_neg_eq_twoPow`).
-/
import Mathlib

namespace LowBit

/-- A number and its predecessor differ in the lowest set bit and below it. -/
theorem exists_testBit_pred (n : Nat) (h : 0 < n) :
    ∃ k, ∀ i, (n.testBit i && !(n - 1).testBit i) = decide (i = k) := by
  induction n using Nat.strong_induction_on with
  | _ n ih =>
      rcases Nat.even_or_odd' n with ⟨r, rfl | rfl⟩
      · obtain ⟨k, hk⟩ := ih r (by omega) (by omega)
        refine ⟨k + 1, fun i => ?_⟩
        cases i with
        | zero => simp
        | succ i =>
            have hpred : 2 * r - 1 = 2 * (r - 1) + 1 := by omega
            rw [hpred, Nat.testBit_succ, Nat.testBit_succ, show 2 * r / 2 = r by omega,
              show (2 * (r - 1) + 1) / 2 = r - 1 by omega, hk i]
            simp
      · refine ⟨0, fun i => ?_⟩
        cases i with
        | zero => simp
        | succ i =>
            rw [Nat.add_sub_cancel, Nat.testBit_succ, Nat.testBit_succ,
              show (2 * r + 1) / 2 = r by omega, show 2 * r / 2 = r by omega]
            simp

/-- No bit is set below the lowest. -/
theorem testBit_of_lt {n k : Nat} (h : ∀ i, (n.testBit i && !(n - 1).testBit i) = decide (i = k)) :
    ∀ i < k, n.testBit i = false := by
  induction k generalizing n with
  | zero => exact fun i hi => absurd hi (Nat.not_lt_zero i)
  | succ k ih =>
      rcases Nat.even_or_odd' n with ⟨r, rfl | rfl⟩
      · intro i hi
        cases i with
        | zero => simp
        | succ i =>
            rw [Nat.testBit_succ, show 2 * r / 2 = r by omega]
            refine ih (fun j => ?_) i (Nat.lt_of_succ_lt_succ hi)
            have hj := h (j + 1)
            rw [Nat.testBit_succ, Nat.testBit_succ, show 2 * r / 2 = r by omega,
              show (2 * r - 1) / 2 = r - 1 by omega] at hj
            rw [hj]
            simp
      · -- the lowest bit of an odd number is bit 0
        have hzero := h 0
        simp at hzero

variable {w : Nat}

/-- Below its lowest set bit the negative of a word is the complement of its predecessor. -/
theorem getLsbD_neg {v : BitVec w} (h : v ≠ 0#w) (i : Nat) :
    (-v).getLsbD i = (decide (i < w) && !(v.toNat - 1).testBit i) := by
  have hpos : 0 < v.toNat := by
    rw [Nat.pos_iff_ne_zero]
    intro e
    exact h (BitVec.eq_of_toNat_eq (by simpa using e))
  have hlt := v.isLt
  rw [BitVec.getLsbD, BitVec.toNat_neg, Nat.mod_eq_of_lt (by omega),
    show 2 ^ w - v.toNat = 2 ^ w - (v.toNat - 1 + 1) by omega,
    Nat.testBit_two_pow_sub_succ (by omega)]

/-- The lowest set bit of a word. -/
theorem exists_and_neg_eq_twoPow (v : BitVec w) (h : v ≠ 0#w) :
    ∃ k < w, v.getLsbD k = true ∧ v &&& -v = BitVec.twoPow w k := by
  have hpos : 0 < v.toNat := by
    rw [Nat.pos_iff_ne_zero]
    intro e
    exact h (BitVec.eq_of_toNat_eq (by simpa using e))
  obtain ⟨k, hk⟩ := exists_testBit_pred v.toNat hpos
  have hset : v.getLsbD k = true := by
    have := hk k
    rw [decide_eq_true rfl, Bool.and_eq_true] at this
    exact this.1
  have hkw : k < w := BitVec.lt_of_getLsbD hset
  refine ⟨k, hkw, hset, BitVec.eq_of_getLsbD_eq fun i hi => ?_⟩
  rw [BitVec.getLsbD_and, getLsbD_neg h, BitVec.getLsbD_twoPow]
  have := hk i
  rw [← BitVec.testBit_toNat]
  simp only [hi, hkw, decide_true, Bool.true_and]
  rw [this]
  simp [eq_comm]

/-- Below the bit that `v &&& -v` has, no bit of `v` is set. -/
theorem getLsbD_of_lt {v : BitVec w} {k : Nat} (hv : v ≠ 0#w) (hk : k < w)
    (h : v &&& -v = BitVec.twoPow w k) : ∀ i < k, v.getLsbD i = false := by
  refine testBit_of_lt fun i => ?_
  rcases Nat.lt_or_ge i w with hi | hi
  · have hbit : (v &&& -v).getLsbD i = (BitVec.twoPow w k).getLsbD i := by rw [h]
    rw [BitVec.getLsbD_and, getLsbD_neg hv, BitVec.getLsbD_twoPow] at hbit
    simp only [hi, hk, decide_true, Bool.true_and] at hbit
    rw [BitVec.testBit_toNat, hbit]
    simp [eq_comm]
  · have hne : i ≠ k := by omega
    rw [BitVec.testBit_toNat, BitVec.getLsbD_of_ge v i hi]
    simp [hne]

/-- Clearing one bit. -/
theorem getLsbD_clear (v : BitVec w) (k i : Nat) :
    (v &&& ~~~(1#w <<< k)).getLsbD i = (v.getLsbD i && !decide (i = k)) := by
  rw [← BitVec.twoPow_eq, BitVec.getLsbD_and, BitVec.getLsbD_not, BitVec.getLsbD_twoPow]
  rcases Nat.lt_or_ge i w with hi | hi
  · rcases eq_or_ne k i with rfl | hne
    · simp [hi]
    · simp [hi, hne, Ne.symm hne]
  · simp [BitVec.getLsbD_of_ge v i hi]

/-- Setting one bit. -/
theorem getLsbD_raise (v : BitVec w) {k : Nat} (hk : k < w) (i : Nat) :
    (v ||| 1#w <<< k).getLsbD i = (v.getLsbD i || decide (i = k)) := by
  rw [← BitVec.twoPow_eq, BitVec.getLsbD_or, BitVec.getLsbD_twoPow, decide_eq_true hk, Bool.true_and]
  simp only [eq_comm]

/-- Testing one bit. -/
theorem and_bit_bne_zero (v : BitVec w) {k : Nat} (hk : k < w) :
    (v &&& 1#w <<< k != 0#w) = v.getLsbD k := by
  have hne : BitVec.twoPow w k ≠ 0#w := by
    intro h
    have hbit : (BitVec.twoPow w k).getLsbD k = (0#w).getLsbD k := by rw [h]
    rw [BitVec.getLsbD_twoPow] at hbit
    simp [hk] at hbit
  rw [← BitVec.twoPow_eq, BitVec.and_twoPow]
  cases v.getLsbD k with
  | false => simp
  | true => simpa using hne

/-- The bits below `n`. -/
theorem getLsbD_low {n : Nat} (hn : n < w) (i : Nat) :
    ((1#w <<< n) - 1#w).getLsbD i = decide (i < n) := by
  have hpow : 2 ^ n < 2 ^ w := Nat.pow_lt_pow_right (by decide) hn
  have hone : 1 ≤ 2 ^ n := Nat.one_le_two_pow
  have htoNat : ((1#w <<< n) - 1#w).toNat = 2 ^ n - 1 := by
    rw [← BitVec.twoPow_eq, BitVec.toNat_sub, BitVec.toNat_twoPow, BitVec.toNat_ofNat,
      Nat.mod_eq_of_lt hpow, Nat.mod_eq_of_lt (by omega : 1 < 2 ^ w),
      show 2 ^ w - 1 + 2 ^ n = 2 ^ n - 1 + 2 ^ w by omega, Nat.add_mod_right,
      Nat.mod_eq_of_lt (by omega)]
  rw [BitVec.getLsbD, htoNat, Nat.testBit_two_pow_sub_one]

/-- The bits from `n` on. -/
theorem getLsbD_high (n i : Nat) :
    (BitVec.allOnes w <<< n).getLsbD i = (decide (i < w) && !decide (i < n)) := by
  rw [BitVec.getLsbD_shiftLeft, BitVec.getLsbD_allOnes]
  rcases Nat.lt_or_ge i w with hi | hi
  · have : i - n < w := by omega
    simp [hi, this]
  · simp [Nat.not_lt.mpr hi]

end LowBit
