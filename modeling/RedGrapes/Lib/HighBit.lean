/-
RedGrapes/Lib/HighBit.lean

Filling a number with ones below its highest bit.

`t ||| t >>> k` copies every bit of `t` to the place `k` below.  `Spread w s t` says that in
`t` each bit of `s` stands at the `w` places from its own downward.  As long as `k ≤ w` the
copies leave no gap, and the width grows by `k` (`Spread.shift`): shifts by 1, 2, 4 and so on
double it each time.  Once the width reaches the highest bit of `s`, all places below that bit
are filled, and `t` is one less than a power of two (`Spread.eq_pred`).

For the predecessor of `n` this power is the least one from `n` on
(`isLeast_two_pow_size_pred`).
-/
import Mathlib

namespace HighBit

variable {w k n s t : Nat}

/-- Each bit of `s` has been copied to the `w` places from its own downward. -/
def Spread (w s t : Nat) : Prop :=
  ∀ i, t.testBit i = true ↔ ∃ j < w, s.testBit (i + j) = true

theorem Spread.start (s : Nat) : Spread 1 s s := by
  intro i
  constructor
  · intro h
    exact ⟨0, Nat.one_pos, h⟩
  · rintro ⟨j, hj, h⟩
    obtain rfl : j = 0 := by omega
    exact h

/-- The copies of the copies. -/
theorem Spread.shift (h : Spread w s t) (hk : k ≤ w) : Spread (w + k) s (t ||| t >>> k) := by
  intro i
  rw [Nat.testBit_or, Nat.testBit_shiftRight, Bool.or_eq_true, h i, h (k + i)]
  constructor
  · rintro (⟨j, hj, hbit⟩ | ⟨j, hj, hbit⟩)
    · exact ⟨j, by omega, hbit⟩
    · refine ⟨k + j, by omega, ?_⟩
      rw [show i + (k + j) = k + i + j by omega]
      exact hbit
  · rintro ⟨j, hj, hbit⟩
    rcases Nat.lt_or_ge j w with hlt | hge
    · exact Or.inl ⟨j, hlt, hbit⟩
    · -- the place is out of the reach of `t`, but not `k` places further up
      refine Or.inr ⟨j - k, by omega, ?_⟩
      rw [show k + i + (j - k) = i + j by omega]
      exact hbit

/-- The highest bit of a number. -/
theorem testBit_size_pred (hs : s ≠ 0) : s.testBit (s.size - 1) = true := by
  obtain ⟨m, hbit, habove⟩ := Nat.exists_most_significant_bit hs
  have hlow : m < s.size := Nat.lt_size.mpr (Nat.ge_two_pow_of_testBit hbit)
  have hhigh : s.size ≤ m + 1 := by
    rw [Nat.size_le]
    exact Nat.lt_pow_two_of_testBit s fun i hi => habove i hi
  rw [show s.size - 1 = m by omega]
  exact hbit

/-- A number of at most `w` bits is filled. -/
theorem Spread.eq_pred (h : Spread w s t) (hs : s < 2 ^ w) : t = 2 ^ s.size - 1 := by
  have hsize : s.size ≤ w := Nat.size_le.mpr hs
  refine Nat.eq_of_testBit_eq fun i => ?_
  rw [Nat.testBit_two_pow_sub_one, Bool.eq_iff_iff, h i, decide_eq_true_iff]
  constructor
  · rintro ⟨j, -, hbit⟩
    have : i + j < s.size := Nat.lt_size.mpr (Nat.ge_two_pow_of_testBit hbit)
    omega
  · intro hi
    have hne : s ≠ 0 := Nat.pos_iff_ne_zero.mp (Nat.size_pos.mp (by omega))
    refine ⟨s.size - 1 - i, by omega, ?_⟩
    rw [show i + (s.size - 1 - i) = s.size - 1 by omega]
    exact testBit_size_pred hne

/-- The powers of two from `n` on. -/
theorem le_two_pow_iff (hn : 1 ≤ n) : n ≤ 2 ^ k ↔ (n - 1).size ≤ k := by
  rw [Nat.size_le]
  omega

theorem isLeast_two_pow_size_pred (hn : 1 ≤ n) :
    IsLeast {p | p.isPowerOfTwo ∧ n ≤ p} (2 ^ (n - 1).size) := by
  constructor
  · exact ⟨⟨_, rfl⟩, (le_two_pow_iff hn).mpr le_rfl⟩
  · rintro p ⟨⟨k, rfl⟩, hle⟩
    exact Nat.pow_le_pow_right Nat.two_pos ((le_two_pow_iff hn).mp hle)

end HighBit
