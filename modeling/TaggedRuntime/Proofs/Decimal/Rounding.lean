import Mathlib.Algebra.Order.Field.Power
import Mathlib.Algebra.Order.Field.Rat
import Mathlib.Data.Nat.Cast.Order.Field
import Mathlib.Tactic.FieldSimp
import Mathlib.Tactic.Linarith
import Mathlib.Tactic.Positivity
import Mathlib.Tactic.Ring
import TaggedRuntime.Decimal.Digits

/-! Rounding of exact quotients to decimal digits. Digits counted from the first
and digits counted from the point are rounded each on their own, and where both
are asked for the same last place they are the same, also if rounding carried to
a new power of ten. -/

namespace TaggedRuntime.Decimal

open Binary64 (roundHalfEven)

/-- The natural number next to a quotient, a half to the even neighbour. -/
structure Nearest (v : ℚ) (n : ℕ) : Prop where
  near : |v - n| ≤ 1 / 2
  even : |v - n| = 1 / 2 → n % 2 = 0

namespace Nearest

variable {v : ℚ} {m n : ℕ}

/-- An integer that is nearest is at most a half away, on both sides. -/
theorem bounds (hn : Nearest v n) : v ≤ n + 1 / 2 ∧ (n : ℚ) ≤ v + 1 / 2 := by
  obtain ⟨hLow, hHigh⟩ := abs_le.mp hn.near
  constructor <;> linarith

/-- Of two nearest integers neither is less than the other. At a tie both are a half away, and then
parity decides. -/
theorem not_lt (hm : Nearest v m) (hn : Nearest v n) : ¬m < n := by
  intro hLt
  have hNext : (m : ℚ) + 1 ≤ n := by exact_mod_cast hLt
  have hAbove := hm.bounds.1
  have hBelow := hn.bounds.2
  -- Both are half away, so both are even, and they are neighbours.
  have hHalf : v - m = 1 / 2 := by linarith
  have hHalf' : v - n = -(1 / 2) := by linarith
  have hEven := hm.even (by rw [hHalf]; norm_num)
  have hEven' := hn.even (by rw [hHalf']; norm_num)
  have hOne : (n : ℚ) = (m + 1 : ℕ) := by
    push_cast
    linarith
  have hSucc : n = m + 1 := by exact_mod_cast hOne
  omega

/-- There is one nearest integer, so whatever computes one computes the same. -/
theorem eq (hm : Nearest v m) (hn : Nearest v n) : m = n :=
  Nat.le_antisymm (Nat.not_lt.mp (hn.not_lt hm)) (Nat.not_lt.mp (hm.not_lt hn))

theorem le_of_le (hn : Nearest v n) (hm : (m : ℚ) ≤ v) : m ≤ n := by
  by_contra hLt
  have hNext : (n : ℚ) + 1 ≤ m := by exact_mod_cast Nat.lt_of_not_le hLt
  linarith [hn.bounds.1]

theorem le_of_ge (hn : Nearest v n) (hm : v ≤ m) : n ≤ m := by
  by_contra hLt
  have hNext : (m : ℚ) + 1 ≤ n := by exact_mod_cast Nat.lt_of_not_le hLt
  linarith [hn.bounds.2]

/-- What is next to a multiple of ten is next to it on the coarser grid. -/
theorem tenth (hm : Nearest v (10 * m)) : Nearest (v / 10) m := by
  obtain ⟨hAbove, hBelow⟩ := hm.bounds
  push_cast at hAbove hBelow
  have hClose : |v / 10 - m| < 1 / 2 := by
    rw [abs_lt]
    constructor <;> linarith
  exact ⟨hClose.le, fun hHalf => absurd hHalf hClose.ne⟩

end Nearest

section Quotient

variable {num den : ℕ}

/-- The rest of a quotient, as a rational. -/
theorem sub_quotient (num : ℕ) (hDen : 0 < den) :
    (num : ℚ) / den - (num / den : ℕ) = (num % den : ℕ) / den := by
  have hPos : (0 : ℚ) < den := by exact_mod_cast hDen
  have hSplit : (den : ℚ) * (num / den : ℕ) + (num % den : ℕ) = num := by
    exact_mod_cast Nat.div_add_mod num den
  rw [← hSplit]
  field_simp
  ring

theorem rest_le_half_iff (num : ℕ) (hDen : 0 < den) :
    ((num % den : ℕ) : ℚ) / den ≤ 1 / 2 ↔ 2 * (num % den) ≤ den := by
  have hPos : (0 : ℚ) < den := by exact_mod_cast hDen
  rw [div_le_div_iff₀ hPos two_pos, one_mul, mul_comm]
  exact_mod_cast Iff.rfl

theorem half_le_rest_iff (num : ℕ) (hDen : 0 < den) :
    1 / 2 ≤ ((num % den : ℕ) : ℚ) / den ↔ den ≤ 2 * (num % den) := by
  have hPos : (0 : ℚ) < den := by exact_mod_cast hDen
  rw [div_le_div_iff₀ two_pos hPos, one_mul, mul_comm]
  exact_mod_cast Iff.rfl

/-- Down if the rest is less than a half, up if it is more, and a tie goes by the quotient. The
quotient is any with a positive denominator, so this is used for both ways to count digits. -/
theorem nearest_roundHalfEven (num : ℕ) (hDen : 0 < den) :
    Nearest ((num : ℚ) / den) (roundHalfEven num den) := by
  have hBelow := sub_quotient num hDen
  have hAtMost := rest_le_half_iff num hDen
  have hAtLeast := half_le_rest_iff num hDen
  unfold roundHalfEven
  dsimp only
  split
  next hDown =>
    have hNear : |(num : ℚ) / den - (num / den : ℕ)| = (num % den : ℕ) / den := by
      rw [hBelow, abs_of_nonneg (by positivity)]
    refine ⟨?_, fun hTie => ?_⟩
    · rw [hNear, hAtMost]
      omega
    · have hHalf := hAtLeast.mp (hNear ▸ hTie).ge
      omega
  next hUp =>
    have hLess : ((num % den : ℕ) : ℚ) / den ≤ 1 := by
      refine (div_le_one (by exact_mod_cast hDen)).mpr ?_
      exact_mod_cast (Nat.mod_lt num hDen).le
    have hNear : |(num : ℚ) / den - (num / den + 1 : ℕ)| =
        1 - ((num % den : ℕ) : ℚ) / den := by
      rw [Nat.cast_add, Nat.cast_one, ← sub_sub, hBelow, abs_of_nonpos (by linarith)]
      ring
    refine ⟨?_, fun hTie => ?_⟩
    · have hHalf := hAtLeast.mpr (by omega)
      rw [hNear]
      linarith
    · rw [hNear] at hTie
      have hHalf := hAtMost.mp (by linarith)
      omega

end Quotient

/-! ### The first digit -/

/-- A number has at most so many digits if it is below that power of ten. Zero has none in this
count. -/
theorem digitCount_le_iff (n k : ℕ) : digitCount n ≤ k ↔ n < 10 ^ k := by
  unfold digitCount
  split
  next hZero => simp [hZero]
  next hSome =>
    cases k with
    | zero =>
        have hDigits := Nat.length_toDigits_pos (b := 10) (n := n)
        rw [pow_zero]
        omega
    | succ k => exact Nat.length_toDigits_le_iff (by decide) k.succ_pos

theorem lt_digitCount_iff (n k : ℕ) : k < digitCount n ↔ 10 ^ k ≤ n := by
  rw [← not_le, digitCount_le_iff, not_lt]

variable {num den : ℕ}

/-- The first digit is not zero. The exponent is read off a count of digits, of the quotient or of
its reciprocal, and both give these bounds. -/
theorem exponent_bounds (hNum : 0 < num) (hDen : 0 < den) :
    (10 : ℚ) ^ exponent num den ≤ (num : ℚ) / den ∧
      (num : ℚ) / den < (10 : ℚ) ^ (exponent num den + 1) := by
  have hPos : (0 : ℚ) < den := by exact_mod_cast hDen
  unfold exponent
  split
  next hLarge =>
    have hQuotient : 0 < num / den := Nat.div_pos hLarge hDen
    obtain ⟨k, hk⟩ : ∃ k, digitCount (num / den) = k + 1 :=
      Nat.exists_eq_succ_of_ne_zero (Nat.ne_of_gt ((lt_digitCount_iff _ 0).mpr hQuotient))
    have hLow : 10 ^ k ≤ num / den := (lt_digitCount_iff _ k).mp (by omega)
    have hHigh : num / den < 10 ^ (k + 1) := (digitCount_le_iff _ _).mp hk.le
    rw [hk, Nat.cast_add, Nat.cast_one, add_sub_cancel_right, zpow_natCast, div_lt_iff₀ hPos,
      le_div_iff₀ hPos]
    constructor
    · exact_mod_cast (Nat.le_div_iff_mul_le hDen).mp hLow
    · exact_mod_cast (Nat.div_lt_iff_lt_mul hDen).mp hHigh
  next hSmall =>
    have hReciprocal : 0 < (den - 1) / num := Nat.div_pos (by omega) hNum
    obtain ⟨k, hk⟩ : ∃ k, digitCount ((den - 1) / num) = k + 1 :=
      Nat.exists_eq_succ_of_ne_zero (Nat.ne_of_gt ((lt_digitCount_iff _ 0).mpr hReciprocal))
    have hLow : 10 ^ k ≤ (den - 1) / num := (lt_digitCount_iff _ k).mp (by omega)
    have hHigh : (den - 1) / num < 10 ^ (k + 1) := (digitCount_le_iff _ _).mp hk.le
    have hAtMost : den ≤ 10 ^ (k + 1) * num := by
      have hLt := (Nat.div_lt_iff_lt_mul hNum).mp hHigh
      omega
    have hAbove : 10 ^ k * num < den := by
      have hLe := (Nat.le_div_iff_mul_le hNum).mp hLow
      omega
    have hShift : -((k + 1 : ℕ) : ℤ) + 1 = -(k : ℤ) := by omega
    rw [hk, hShift, zpow_neg, zpow_neg, zpow_natCast, zpow_natCast, div_lt_iff₀ hPos,
      le_div_iff₀ hPos, inv_mul_le_iff₀ (by positivity), lt_inv_mul_iff₀ (by positivity)]
    exact ⟨by exact_mod_cast hAtMost, by exact_mod_cast hAbove⟩

theorem cast_tenPow (n : ℕ) : (tenPow n : ℚ) = 10 ^ n := by
  change ((10 ^ n : ℕ) : ℚ) = 10 ^ n
  push_cast
  rfl

theorem scaleDown_pos (num : ℕ) (hDen : 0 < den) (power : ℤ) :
    0 < (scaleDown num den power).2 :=
  Nat.mul_pos hDen (Nat.pow_pos (by decide))

/-- Scaling divides by the power of ten, by a product above or below the line as the sign of the
power says. Nothing is rounded. -/
theorem scaleDown_div (num : ℕ) (hDen : 0 < den) (power : ℤ) :
    ((scaleDown num den power).1 : ℚ) / (scaleDown num den power).2 =
      num / den / (10 : ℚ) ^ power := by
  have hPos : (0 : ℚ) < den := by exact_mod_cast hDen
  have hPower : (10 : ℚ) ^ power * 10 ^ (-power).toNat = 10 ^ power.toNat := by
    rw [← zpow_natCast, ← zpow_natCast, ← zpow_add₀ (by norm_num)]
    congr 1
    omega
  have hTen : (0 : ℚ) < 10 ^ power := by positivity
  rw [scaleDown, Nat.cast_mul, Nat.cast_mul, cast_tenPow, cast_tenPow, ← hPower]
  field_simp

/-! ### Digits from the first and digits from the point -/

/-- `digits * 10 ^ (exponent + 1 - count)` is a quotient rounded to `count` significant digits. The
digit that is rounded to is counted from the first digit `e` of the quotient itself; if rounding
carries past that one, the digits are those of the next power of ten. -/
structure Significant (count : ℕ) (v : ℚ) (digits : ℕ) (exponent : ℤ) : Prop where
  low : 10 ^ (count - 1) ≤ digits
  high : digits < 10 ^ count
  near : ∃ (e : ℤ) (n : ℕ), (10 : ℚ) ^ e ≤ v ∧ v < (10 : ℚ) ^ (e + 1) ∧
    Nearest (v / (10 : ℚ) ^ (e + 1 - count)) n ∧
      (n : ℚ) * (10 : ℚ) ^ (e + 1 - count) = digits * (10 : ℚ) ^ (exponent + 1 - count)

theorem unit_exponent (e : ℤ) (c : ℕ) : e + 1 - (c + 1 : ℕ) = e - c := by
  push_cast
  ring

/-- In units of the last of `c + 1` digits a quotient lies between the powers of ten that bound
numbers of so many digits. The upper one may be reached by rounding, which is the case of a carry.
-/
theorem scaled_bounds {e : ℤ} {v : ℚ} (hLow : (10 : ℚ) ^ e ≤ v) (hHigh : v < (10 : ℚ) ^ (e + 1))
    (c : ℕ) : ((10 ^ c : ℕ) : ℚ) ≤ v / (10 : ℚ) ^ (e - c) ∧
      v / (10 : ℚ) ^ (e - c) ≤ ((10 ^ (c + 1) : ℕ) : ℚ) := by
  have hUnit : (0 : ℚ) < 10 ^ (e - c) := by positivity
  have hNext : ((c + 1 : ℕ) : ℤ) + (e - c) = e + 1 := by
    push_cast
    ring
  rw [le_div_iff₀ hUnit, div_le_iff₀ hUnit, Nat.cast_pow, Nat.cast_pow, Nat.cast_ofNat,
    ← zpow_natCast, ← zpow_natCast, ← zpow_add₀ (by norm_num), ← zpow_add₀ (by norm_num),
    add_sub_cancel, hNext]
  exact ⟨hLow, hHigh.le⟩

/-- Either the first digit stays where it is, or all digits are nines and one more makes the next
power of ten. In the second case the exponent is one more and the digits start with a one. -/
theorem roundSignificant_cases (c : ℕ) (hNum : 0 < num) (hDen : 0 < den) :
    ∃ (e : ℤ) (n : ℕ), (10 : ℚ) ^ e ≤ (num : ℚ) / den ∧ (num : ℚ) / den < (10 : ℚ) ^ (e + 1) ∧
      Nearest ((num : ℚ) / den / (10 : ℚ) ^ (e - c)) n ∧ 10 ^ c ≤ n ∧
      (n = 10 ^ (c + 1) ∧ roundSignificant (c + 1) num den = ⟨10 ^ c, e + 1⟩ ∨
        n < 10 ^ (c + 1) ∧ roundSignificant (c + 1) num den = ⟨n, e⟩) := by
  obtain ⟨hLow, hHigh⟩ := exponent_bounds hNum hDen
  have hNearest := nearest_roundHalfEven (scaleDown num den (exponent num den - c)).1
    (scaleDown_pos num hDen (exponent num den - c))
  rw [scaleDown_div num hDen] at hNearest
  obtain ⟨hFirst, hLast⟩ := scaled_bounds hLow hHigh c
  refine ⟨exponent num den, _, hLow, hHigh, hNearest, hNearest.le_of_le hFirst, ?_⟩
  have hMost := hNearest.le_of_ge hLast
  unfold roundSignificant
  dsimp only
  rw [unit_exponent]
  split
  next hCarry => exact .inl ⟨hCarry, rfl⟩
  next hStays => exact .inr ⟨Nat.lt_of_le_of_ne hMost hStays, rfl⟩

/-- Rounding to a number of digits gives so many, the first of which is not zero, and they are the
nearest ones. -/
theorem significant_roundSignificant (c : ℕ) (hNum : 0 < num) (hDen : 0 < den) :
    Significant (c + 1) ((num : ℚ) / den) (roundSignificant (c + 1) num den).digits
      (roundSignificant (c + 1) num den).exponent := by
  obtain ⟨e, n, hLow, hHigh, hNearest, hFirst, ⟨rfl, hRun⟩ | ⟨hLess, hRun⟩⟩ :=
    roundSignificant_cases c hNum hDen
  · rw [hRun]
    refine ⟨le_refl _, Nat.pow_lt_pow_right (by decide) c.lt_succ_self, e, 10 ^ (c + 1), hLow,
      hHigh, (unit_exponent e c).symm ▸ hNearest, ?_⟩
    rw [unit_exponent, unit_exponent]
    push_cast
    rw [add_sub_right_comm, zpow_add_one₀ (by norm_num), pow_succ]
    ring
  · rw [hRun]
    exact ⟨hFirst, hLess, e, n, hLow, hHigh, (unit_exponent e c).symm ▸ hNearest, rfl⟩

/-- Both ways to count give the same digits where they end at the same place. After a carry
the digits behind the point end one place earlier, and the quotient is still next to the
same power of ten. -/
theorem roundPlaces_eq {c places : ℕ} (hNum : 0 < num) (hDen : 0 < den)
    (hPlaces : (places : ℤ) = c - (roundSignificant (c + 1) num den).exponent) :
    roundPlaces places num den = (roundSignificant (c + 1) num den).digits := by
  have hNearest := nearest_roundHalfEven (num * tenPow places) hDen
  have hScaled : ((num * tenPow places : ℕ) : ℚ) / den = num / den / 10 ^ (-(places : ℤ)) := by
    rw [Nat.cast_mul, cast_tenPow, zpow_neg, zpow_natCast, div_inv_eq_mul]
    ring
  rw [hScaled] at hNearest
  refine hNearest.eq ?_
  obtain ⟨e, n, _, _, hRounded, _, ⟨rfl, hRun⟩ | ⟨_, hRun⟩⟩ := roundSignificant_cases c hNum hDen
  · rw [hRun] at hPlaces ⊢
    dsimp only at hPlaces
    have hUnit : (10 : ℚ) ^ (-(places : ℤ)) = 10 ^ (e - c) * 10 := by
      rw [← zpow_add_one₀ (by norm_num)]
      congr 1
      omega
    rw [hUnit, ← div_div]
    rw [pow_succ'] at hRounded
    exact hRounded.tenth
  · rw [hRun] at hPlaces ⊢
    dsimp only at hPlaces
    have hUnit : -(places : ℤ) = e - c := by omega
    rwa [hUnit]

end TaggedRuntime.Decimal
