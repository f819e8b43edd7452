import TaggedRuntime.Proofs.Binary64.Exact

/-! Integral numbers. An integer next to a finite number is a number itself, so a
floor and a ceiling round nothing, and a number passes to the 64-bit integers
exactly when it is one of them. -/

namespace TaggedRuntime.Binary64

variable {x y : Binary64} {k : Int}

theorem one_positive : 0 < one := twoPow_pos 1074

/-- A magnitude has a significand and zeros behind it. -/
theorem unitsOfMagnitude_split (m : Nat) :
    ∃ significand < twoPow 53, ∃ exponent, unitsOfMagnitude m = significand * twoPow exponent := by
  rcases Nat.lt_or_ge m (twoPow 52) with hSmall | hLarge
  · refine ⟨m, Nat.lt_trans hSmall (by decide), 0, ?_⟩
    rw [unitsOfMagnitude_of_lt hSmall]
    exact (Nat.mul_one m).symm
  · refine ⟨_, ?_, _, unitsOfMagnitude_of_le hLarge⟩
    rw [twoPow_succ 52, Nat.two_mul]
    exact Nat.add_lt_add_left (Nat.mod_lt m (twoPow_pos 52)) _

/-- The units of a finite number are representable, since the number represents them. -/
theorem representable_natAbs_units (hFinite : x.isFinite = true) :
    Representable x.units.natAbs :=
  ⟨x.magnitude, by simpa [isFinite] using hFinite, (natAbs_units x).symm⟩

/-- An integer that is less than one away from a finite number is a number. A number
with a fraction is far below `2 ^ 53`, and one without is the integer. -/
theorem representable_of_near (hFinite : x.isFinite = true)
    (hNear : (k * one - x.units).natAbs < one) : Representable (k.natAbs * one) := by
  have hAbs : (k * one).natAbs = k.natAbs * one := by rw [Int.natAbs_mul, Int.natAbs_natCast]
  obtain ⟨s, hBits, e, hUnits⟩ := unitsOfMagnitude_split x.magnitude
  rw [← natAbs_units] at hUnits
  rcases Nat.lt_or_ge e 1074 with hFraction | hWhole
  · have hBelow : x.units.natAbs < twoPow 52 * one := by
      calc
        x.units.natAbs = s * twoPow e := hUnits
        _ ≤ s * twoPow 1073 := Nat.mul_le_mul_left s (twoPow_le_twoPow (by omega))
        _ < twoPow 53 * twoPow 1073 := Nat.mul_lt_mul_of_pos_right hBits (twoPow_pos 1073)
        _ = twoPow 52 * one := by rw [one, ← twoPow_add, ← twoPow_add]
    have hSmall : k.natAbs < twoPow 53 := by
      have hNext : k.natAbs * one < (twoPow 52 + 1) * one := by
        rw [Nat.succ_mul]
        omega
      exact Nat.lt_trans (Nat.lt_of_mul_lt_mul_right hNext) (by decide)
    apply representable_mul hSmall
    calc
      k.natAbs * twoPow 1074 < twoPow 53 * twoPow 1074 :=
        Nat.mul_lt_mul_of_pos_right hSmall (twoPow_pos 1074)
      _ ≤ twoPow 2098 := by
        rw [← twoPow_add]
        exact twoPow_le_twoPow (by decide)
  · obtain ⟨d, rfl⟩ := Nat.exists_eq_add_of_le hWhole
    have hWhole : one * (s * twoPow d) = x.units.natAbs := by
      rw [hUnits, twoPow_add]
      exact Nat.mul_left_comm one s (twoPow d)
    have hMultiple : (one : Int) ∣ k * one - x.units :=
      Int.dvd_sub (Int.dvd_mul_left k one) (Int.natCast_dvd.mpr (Dvd.intro _ hWhole))
    have hLess : (k * one - x.units).natAbs < (one : Int).natAbs := by
      rwa [Int.natAbs_natCast]
    have hEq : k * one - x.units = 0 := Int.eq_zero_of_dvd_of_natAbs_lt_natAbs hMultiple hLess
    rw [← hAbs, Int.sub_eq_zero.mp hEq]
    exact representable_natAbs_units hFinite

@[simp] theorem units_zero (b : Bool) : (zero b).units = 0 := by
  rw [zero, units_ofMagnitude b (twoPow_pos 63), unitsOfMagnitude_of_lt (twoPow_pos 52)]
  cases b <;> rfl

/-- An integer that is representable is converted without rounding. -/
theorem units_ofInt (h : Representable (k.natAbs * one)) : (ofInt k).units = k * one := by
  rw [ofInt, h.units_ofUnits, Int.natCast_mul]
  rcases Int.lt_or_le k 0 with hNegative | hNatural
  · rw [decide_eq_true hNegative, if_pos rfl, Int.ofNat_natAbs_of_nonpos (Int.le_of_lt hNegative),
      Int.neg_mul, Int.neg_neg]
  · rw [decide_eq_false (Int.not_lt.mpr hNatural), if_neg Bool.false_ne_true,
      Int.natAbs_of_nonneg hNatural]

theorem isNaN_ofInt (k : Int) : (ofInt k).isNaN = false := isNaN_ofUnits _ _ _

/-- An integral part next to a finite number is that integer. The sign of a zero is the one of the
number, which the units do not show. -/
theorem units_ofIntegralPart (hFinite : x.isFinite = true)
    (hNear : (k * one - x.units).natAbs < one) : (ofIntegralPart x k).units = k * one := by
  unfold ofIntegralPart
  split
  next hZero => rw [units_zero, hZero, Int.zero_mul]
  next => exact units_ofInt (representable_of_near hFinite hNear)

theorem fdiv_one_bounds (n : Int) : n.fdiv one * one ≤ n ∧ n < n.fdiv one * one + one := by
  have hUnit : (0 : Int) < one := Int.natCast_pos.mpr one_positive
  have hPlace := Int.fdiv_mul_add_fmod n one
  have hLow := Int.fmod_nonneg_of_pos n hUnit
  have hHigh := Int.fmod_lt_of_pos n hUnit
  omega

/-- The floor of a finite number is the floor of its units, in whole numbers. -/
theorem units_floor (hFinite : x.isFinite = true) :
    x.floor.units = x.units.fdiv one * one := by
  rw [floor, if_pos hFinite]
  apply units_ofIntegralPart hFinite
  obtain ⟨hBelow, hAbove⟩ := fdiv_one_bounds x.units
  omega

/-- The floor of a number is a number, and infinity is its own floor. -/
theorem isNaN_floor (x : Binary64) : x.floor.isNaN = x.isNaN := by
  unfold floor ofIntegralPart
  split
  next hFinite =>
    have hNumber : x.isNaN = false := by
      rw [isNaN_eq_false_iff]
      exact Nat.le_of_lt (by simpa [isFinite] using hFinite)
    rw [hNumber]
    split
    · cases x.negative <;> rfl
    · exact isNaN_ofInt _
  next => rfl

/-! ### 64-bit integers -/

theorem units_twoPow63 : twoPow63.units = 2 ^ 63 * one := by decide +kernel

theorem units_neg_twoPow63 : (-twoPow63).units = -(2 ^ 63) * one := by decide +kernel

theorem isFinite_of_lt (hSmall : x.units.natAbs < infiniteUnits) : x.isFinite = true := by
  rw [natAbs_units] at hSmall
  rw [isFinite, decide_eq_true_eq]
  by_contra hLarge
  have hPast := infiniteUnits_le (Nat.le_of_not_lt hLarge)
  omega

/-- Numbers are equal if their units are. The two zeros are equal in this way although their words
differ. -/
theorem eq_iff (hx : x.isNaN = false) (hy : y.isNaN = false) :
    x.eq y = true ↔ x.units = y.units := by
  simp [eq, hx, hy]

/-- Whether a number lies among the 64-bit integers, its fraction aside. -/
theorem in64_iff (hNumber : x.isNaN = false) :
    (-twoPow63).le x = true ∧ x.lt twoPow63 = true ↔
      -(2 ^ 63) * one ≤ x.units ∧ x.units < 2 ^ 63 * one := by
  have hHigh : twoPow63.isNaN = false := by decide
  have hLow : (-twoPow63).isNaN = false := by decide
  simp only [le, lt, hNumber, hHigh, hLow, units_twoPow63, units_neg_twoPow63, Bool.not_false,
    Bool.and_self, Bool.true_and, decide_eq_true_eq]

/-- A number that is a 64-bit integer lies within the bounds of these. -/
theorem bounds_of_units {n : Int64} (hUnits : x.units = n.toInt * one) :
    -(2 ^ 63) * one ≤ x.units ∧ x.units < 2 ^ 63 * one := by
  have hUnit : (0 : Int) < one := Int.natCast_pos.mpr one_positive
  rw [hUnits]
  exact ⟨Int.mul_le_mul_of_nonneg_right n.le_toInt (Int.le_of_lt hUnit),
    Int.mul_lt_mul_of_pos_right n.toInt_lt hUnit⟩

theorem isFinite_of_in64 (hLow : -(2 ^ 63) * one ≤ x.units) (hHigh : x.units < 2 ^ 63 * one) :
    x.isFinite = true := by
  have hPast : 2 ^ 63 * one < infiniteUnits := by decide +kernel
  apply isFinite_of_lt
  omega

/-- A number passes to a 64-bit integer exactly when it is that integer. Both bounds are checked as
floats, and the conversion loses nothing within them. -/
theorem toInt64?_eq_some_iff (hNumber : x.isNaN = false) {n : Int64} :
    x.toInt64? = some n ↔ x.units = n.toInt * one := by
  have hUnit : (0 : Int) < one := Int.natCast_pos.mpr one_positive
  have hTruncate (k : Int) (hUnits : x.units = k * one) : x.truncate = k := by
    rw [truncate, hUnits, Int.mul_tdiv_cancel k (Int.ne_of_gt hUnit)]
  unfold toInt64?
  constructor
  · intro h
    obtain ⟨hIn, hWord⟩ : (x.floor.eq x && (-twoPow63).le x && x.lt twoPow63) = true ∧
        Int64.ofInt x.truncate = n := by simpa using h
    simp only [Bool.and_eq_true, and_assoc] at hIn
    obtain ⟨hLow, hHigh⟩ := (in64_iff hNumber).mp hIn.2
    have hFinite := isFinite_of_in64 hLow hHigh
    have hWhole := (eq_iff (x.isNaN_floor.trans hNumber) hNumber).mp hIn.1
    rw [units_floor hFinite] at hWhole
    generalize x.units.fdiv one = k at hWhole
    rw [hTruncate k hWhole.symm] at hWord
    rw [← hWhole] at hLow hHigh
    rw [← hWhole, ← hWord, Int64.toInt_ofInt_of_le (Int.le_of_mul_le_mul_right hLow hUnit)
      (Int.lt_of_mul_lt_mul_right hHigh (Int.le_of_lt hUnit))]
  · intro hUnits
    obtain ⟨hLow, hHigh⟩ := bounds_of_units hUnits
    have hFloor : x.floor.eq x = true := by
      rw [eq_iff (x.isNaN_floor.trans hNumber) hNumber, units_floor (isFinite_of_in64 hLow hHigh),
        hUnits, Int.mul_fdiv_cancel _ (Int.ne_of_gt hUnit)]
    obtain ⟨hLe, hLt⟩ := (in64_iff hNumber).mpr ⟨hLow, hHigh⟩
    rw [hFloor, hLe, hLt, hTruncate _ hUnits, Int64.ofInt_toInt]
    rfl

/-- The number nearest to a 64-bit integer that is a number is that number. -/
theorem eq_ofInt_of_toInt64? (hNumber : x.isNaN = false) {n : Int64} (h : x.toInt64? = some n) :
    (ofInt n.toInt).eq x = true := by
  have hUnits := (toInt64?_eq_some_iff hNumber).mp h
  obtain ⟨hLow, hHigh⟩ := bounds_of_units hUnits
  have hNear : (n.toInt * one - x.units).natAbs < one := by
    rw [hUnits, Int.sub_self]
    exact one_positive
  rw [eq_iff (isNaN_ofInt _) hNumber, hUnits]
  exact units_ofInt (representable_of_near (isFinite_of_in64 hLow hHigh) hNear)

end TaggedRuntime.Binary64
