import Mathlib.Algebra.Order.Field.Basic
import Mathlib.Data.Rat.Floor

/-! Quotients of integers, rounded to the floor and towards zero, and what each of them leaves. -/

namespace TaggedRuntime

/-- A number without its fraction. -/
def towardZero (q : ℚ) : ℤ := if q < 0 then ⌈q⌉ else ⌊q⌋

/-- The floor of a quotient of rationals is the floor quotient of the integers. Both sides are zero
where the divisor is. -/
theorem floor_div (a b : Int) : ⌊(a : ℚ) / b⌋ = a.fdiv b := by
  rcases Int.le_total 0 b with hNatural | hNegative
  · obtain ⟨d, rfl⟩ := Int.eq_ofNat_of_zero_le hNatural
    rw [Int.fdiv_eq_ediv_of_nonneg a hNatural]
    exact_mod_cast Rat.floor_intCast_div_natCast a d
  · obtain ⟨d, hd⟩ := Int.eq_ofNat_of_zero_le (Int.neg_nonneg_of_nonpos hNegative)
    have hFlip : (a : ℚ) / b = (-a : ℤ) / (d : ℕ) := by
      have hCast : ((d : ℕ) : ℚ) = -b := by exact_mod_cast hd.symm
      rw [hCast, Int.cast_neg, neg_div_neg_eq]
    rw [hFlip, Rat.floor_intCast_div_natCast, ← Int.neg_fdiv_neg, hd,
      Int.fdiv_eq_ediv_of_nonneg _ (Int.natCast_nonneg d)]

/-- The ceiling of a quotient is the floor of the negated one, negated again. -/
theorem ceil_div (a b : Int) : ⌈(a : ℚ) / b⌉ = -(-a).fdiv b := by
  rw [← floor_div, Int.cast_neg, neg_div, Int.floor_neg, neg_neg]

theorem div_neg_iff_left (a : Int) {b : Int} (hb : 0 < b) : (a : ℚ) / b < 0 ↔ a < 0 := by
  rw [div_lt_iff₀ (by exact_mod_cast hb), zero_mul, Int.cast_lt_zero]

/-- Rounding a rational quotient towards zero truncates the quotient of the integers. The divisor is
positive, so the sign of the quotient is that of the dividend. -/
theorem towardZero_div (a : Int) {b : Int} (hb : 0 < b) : towardZero ((a : ℚ) / b) = a.tdiv b := by
  unfold towardZero
  split
  next hNegative =>
    have ha := (div_neg_iff_left a hb).mp hNegative
    rw [ceil_div, Int.fdiv_eq_tdiv_of_nonneg (by omega) (by omega), Int.neg_tdiv, Int.neg_neg]
  next hNatural =>
    have ha := mt (div_neg_iff_left a hb).mpr hNatural
    rw [floor_div, Int.fdiv_eq_tdiv_of_nonneg (by omega) (by omega)]

/-- The quotient rounded towards zero is one too large where the signs differ and a remainder is
left. -/
theorem fdiv_eq_corrected (a : Int) {b : Int} (hb : b ≠ 0) :
    a.fdiv b = if (a < 0 ↔ 0 ≤ b) ∧ a.tmod b ≠ 0 then a.tdiv b - 1 else a.tdiv b := by
  have hExact := Int.dvd_iff_tmod_eq_zero (a := b) (b := a)
  rw [Int.fdiv_eq_tdiv]
  rcases Int.lt_or_gt_of_ne hb with hNegative | hPositive
  · rw [Int.sign_eq_neg_one_of_neg hNegative]
    split_ifs <;> omega
  · rw [Int.sign_eq_one_of_pos hPositive]
    split_ifs <;> omega

/-- The floor remainder is the truncated one, moved by one divisor where the signs differ and a
remainder is left. This is the correction that is made after the division of words. -/
theorem fmod_eq_corrected (a : Int) {b : Int} (hb : b ≠ 0) :
    a.fmod b = if (a < 0 ↔ 0 ≤ b) ∧ a.tmod b ≠ 0 then a.tmod b + b else a.tmod b := by
  rw [Int.fmod_def, fdiv_eq_corrected a hb]
  split
  next =>
    rw [Int.mul_sub, Int.mul_one, Int.tmod_def]
    omega
  next => rw [Int.tmod_def]

/-- A quotient that leaves a remainder has a divisor of two at least, so it is far from the least
integer. So the correction of such a quotient never leaves the words. -/
theorem tdiv_bounds {a b : Int} (ha : a.natAbs ≤ 2 ^ 63) (hRest : a.tmod b ≠ 0) (hb : b ≠ 0) :
    (a.tdiv b).natAbs ≤ 2 ^ 62 := by
  have hTwo : 2 ≤ b.natAbs := by
    by_contra hLess
    refine hRest ?_
    rw [← Int.natAbs_eq_zero, Int.natAbs_tmod]
    have hOne : b.natAbs = 1 := by omega
    rw [hOne, Nat.mod_one]
  rw [Int.natAbs_tdiv]
  calc a.natAbs / b.natAbs
    _ ≤ a.natAbs / 2 := Nat.div_le_div_left hTwo (by decide)
    _ ≤ 2 ^ 62 := by omega

/-- A remainder lies between zero and the divisor, which it does not reach. -/
theorem fmod_bounds (a : Int) {b : Int} (hb : b ≠ 0) :
    (a.fmod b = 0 ∨ (a.fmod b < 0 ↔ b < 0)) ∧ (a.fmod b).natAbs < b.natAbs := by
  rcases Int.lt_or_gt_of_ne hb with hNegative | hPositive
  · have hLow := Int.fmod_nonneg_of_pos (-a) (Int.neg_pos_of_neg hNegative)
    have hHigh := Int.fmod_lt_of_pos (-a) (Int.neg_pos_of_neg hNegative)
    rw [Int.neg_fmod_neg] at hLow hHigh
    omega
  · have hLow := Int.fmod_nonneg_of_pos a hPositive
    have hHigh := Int.fmod_lt_of_pos a hPositive
    omega

end TaggedRuntime
