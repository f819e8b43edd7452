import TaggedRuntime.Proofs.Binary64.Integral
import TaggedRuntime.Proofs.Quotient

/-! Finite numbers as rationals. Their integral parts are those of the rationals, and what is left
of a number behind its integral part is a number again, so that a subtraction gives it exactly. -/

namespace TaggedRuntime.Binary64

variable {x y : Binary64} {k : Int}

/-- The number that a finite word stands for. -/
def toRat (x : Binary64) : ℚ := x.units / one

/-- A rational in units of the smallest number, over the number of them in one. -/
theorem toRat_eq_div (x : Binary64) : x.toRat = (x.units : ℚ) / (one : ℤ) := by
  rw [toRat, Int.cast_natCast]

theorem one_positive_int : (0 : Int) < one := Int.natCast_pos.mpr one_positive

/-- A number is an integer exactly if its units are that many ones. -/
theorem toRat_eq_iff (x : Binary64) (k : Int) : x.toRat = k ↔ x.units = k * one := by
  have hUnit : ((one : ℤ) : ℚ) ≠ 0 := by exact_mod_cast one_positive.ne'
  rw [toRat_eq_div, div_eq_iff hUnit]
  exact_mod_cast Iff.rfl

/-- The floor of the rational is a floor quotient of integers, which is how it is computed. -/
theorem floor_toRat (x : Binary64) : ⌊x.toRat⌋ = x.units.fdiv one := by
  rw [toRat_eq_div, floor_div]

/-- The ceiling is the floor of the negated units, negated again. -/
theorem ceil_toRat (x : Binary64) : ⌈x.toRat⌉ = -(-x.units).fdiv one := by
  rw [toRat_eq_div, ceil_div]

/-- The part before the point is the truncated quotient. -/
theorem towardZero_toRat (x : Binary64) : towardZero x.toRat = x.units.tdiv one := by
  rw [toRat_eq_div, towardZero_div _ one_positive_int]

/-- The fraction of a number, as a rational. It is less than one, on either side of zero. -/
theorem toRat_fraction (h : y.units = x.units.tmod one) :
    y.toRat = x.toRat - x.units.tdiv one ∧ |y.toRat| < 1 := by
  have hUnit : (0 : ℚ) < (one : ℤ) := by exact_mod_cast one_positive
  have hSplit : (x.units : ℚ) = x.units.tdiv one * (one : ℤ) + x.units.tmod one := by
    exact_mod_cast (Int.tdiv_mul_add_tmod x.units one).symm
  have hLess : |x.units.tmod one| < one := by
    rw [Int.abs_eq_natAbs, Int.natAbs_tmod, Int.natAbs_natCast]
    exact_mod_cast Nat.mod_lt _ one_positive
  rw [toRat_eq_div, toRat_eq_div, h]
  constructor
  · rw [hSplit, add_div, mul_div_cancel_right₀ _ hUnit.ne', add_sub_cancel_left]
  · rw [abs_div, abs_of_pos hUnit, div_lt_one hUnit]
    exact_mod_cast hLess

/-! ### Integral parts -/

theorem isNaN_of_isFinite (hFinite : x.isFinite = true) : x.isNaN = false := by
  rw [isNaN_eq_false_iff]
  exact Nat.le_of_lt (of_decide_eq_true hFinite)

theorem isInfinite_of_isFinite (hFinite : x.isFinite = true) : x.isInfinite = false :=
  decide_eq_false (Nat.ne_of_lt (of_decide_eq_true hFinite))

/-- A representable number of units makes a finite number. -/
theorem Representable.isFinite_ofUnits {n : Nat} (h : Representable n) (b : Bool) :
    (ofUnits b n 1).isFinite = true := by
  obtain ⟨m, hFinite, rfl⟩ := h
  rw [isFinite, ofUnits, magnitude_ofMagnitude b (magnitudeOfUnits_lt _ _),
    magnitudeOfUnits_unitsOfMagnitude (Nat.le_of_lt hFinite)]
  exact decide_eq_true hFinite

theorem isFinite_zero (b : Bool) : (zero b).isFinite = true := by
  cases b <;> rfl

/-- The integral part of a finite number is finite. It is not further from zero than the next
integer, and that is a number itself. -/
theorem isFinite_ofIntegralPart (hFinite : x.isFinite = true)
    (hNear : (k * one - x.units).natAbs < one) : (ofIntegralPart x k).isFinite = true := by
  unfold ofIntegralPart
  split
  next => exact isFinite_zero _
  next => exact (representable_of_near hFinite hNear).isFinite_ofUnits _

/-- The floor is less than one away from the number. -/
theorem floor_near (x : Binary64) : (x.units.fdiv one * one - x.units).natAbs < one := by
  obtain ⟨hBelow, hAbove⟩ := fdiv_one_bounds x.units
  omega

/-- The ceiling is less than one away from the number. -/
theorem ceil_near (x : Binary64) : (-(-x.units).fdiv one * one - x.units).natAbs < one := by
  obtain ⟨hBelow, hAbove⟩ := fdiv_one_bounds (-x.units)
  rw [Int.neg_mul]
  omega

/-- The ceiling of a finite number is exact, like its floor. -/
theorem units_ceil (hFinite : x.isFinite = true) :
    x.ceil.units = -(-x.units).fdiv one * one := by
  rw [ceil, if_pos hFinite]
  exact units_ofIntegralPart hFinite (ceil_near x)

theorem isFinite_floor (hFinite : x.isFinite = true) : x.floor.isFinite = true := by
  rw [floor, if_pos hFinite]
  exact isFinite_ofIntegralPart hFinite (floor_near x)

/-- The ceiling of a finite number is finite. -/
theorem isFinite_ceil (hFinite : x.isFinite = true) : x.ceil.isFinite = true := by
  rw [ceil, if_pos hFinite]
  exact isFinite_ofIntegralPart hFinite (ceil_near x)

/-! ### Differences -/

theorem magnitude_lt (x : Binary64) : x.magnitude < twoPow 63 := Nat.mod_lt _ (twoPow_pos 63)

@[simp] theorem magnitude_neg (x : Binary64) : (-x).magnitude = x.magnitude :=
  magnitude_ofMagnitude _ x.magnitude_lt

@[simp] theorem negative_neg (x : Binary64) : (-x).negative = !x.negative :=
  negative_ofMagnitude _ x.magnitude_lt

theorem isFinite_neg (x : Binary64) : (-x).isFinite = x.isFinite := by
  rw [isFinite, magnitude_neg, isFinite]

/-- Negation changes the sign bit only, and it negates the units. -/
theorem units_neg (x : Binary64) : (-x).units = -x.units := by
  rw [units, units, magnitude_neg, negative_neg]
  cases x.negative <;> simp

/-- Finite numbers with different units have a difference that is rounded once. Equal ones are left
out because the sign of their difference is not that of zero units. -/
theorem sub_eq_ofUnits (hx : x.isFinite = true) (hy : y.isFinite = true)
    (hDiffer : x.units ≠ y.units) :
    x - y = ofUnits (x.units - y.units < 0) (x.units - y.units).natAbs 1 := by
  have hMinus : (-y).isFinite = true := (isFinite_neg y).trans hy
  have hSum : x.units + (-y).units = x.units - y.units := by rw [units_neg, Int.sub_eq_add_neg]
  have hNonzero : x.units - y.units ≠ 0 := sub_ne_zero.mpr hDiffer
  change (if x.isNaN || y.isNaN then nan else add x (-y)) = _
  unfold add
  simp only [isNaN_of_isFinite hx, isNaN_of_isFinite hy, isNaN_of_isFinite hMinus,
    isInfinite_of_isFinite hx, isInfinite_of_isFinite hMinus, hSum, hNonzero, Bool.or_self,
    Bool.false_eq_true, if_false]

theorem negative_ofUnits (b : Bool) (num den : Nat) : (ofUnits b num den).negative = b :=
  negative_ofMagnitude b (magnitudeOfUnits_lt num den)

/-- The fraction of a number of units has no more bits than the number. So taking the whole part off
a number needs no rounding. -/
theorem representable_fraction (x : Binary64) : Representable (x.units.natAbs % one) := by
  have hLess : x.units.natAbs % one < infiniteUnits :=
    Nat.lt_trans (Nat.mod_lt _ one_positive) (by decide +kernel)
  obtain ⟨s, hBits, e, hUnits⟩ := unitsOfMagnitude_split x.magnitude
  rw [natAbs_units, hUnits] at hLess ⊢
  rcases Nat.lt_or_ge e 1074 with hFraction | hWhole
  · obtain ⟨d, hd⟩ := Nat.exists_eq_add_of_le (Nat.le_of_lt hFraction)
    have hUnit : one = twoPow d * twoPow e := by rw [one, hd, Nat.add_comm, twoPow_add]
    rw [hUnit, Nat.mul_mod_mul_right] at hLess ⊢
    exact representable_mul (Nat.lt_of_le_of_lt (Nat.mod_le _ _) hBits) hLess
  · obtain ⟨d, rfl⟩ := Nat.exists_eq_add_of_le hWhole
    have hNone : s * twoPow (1074 + d) % one = 0 * twoPow 0 := by
      rw [twoPow_add, Nat.mul_left_comm]
      exact Nat.mul_mod_right _ _
    rw [hNone] at hLess ⊢
    exact representable_mul (twoPow_pos 53) hLess

/-- What is left of a number behind its integral part is exact, and has its sign. A number that is
its own integral part is left out, for its difference is a zero without a sign. -/
theorem sub_integralPart (hx : x.isFinite = true) (hy : y.isFinite = true)
    (hUnits : y.units = x.units.tdiv one * one) (hDiffer : x.units ≠ y.units) :
    (x - y).isFinite = true ∧ (x - y).units = x.units.tmod one ∧
      (x - y).negative = x.negative := by
  have hRest : x.units - y.units = x.units.tmod one := by
    rw [hUnits, Int.tmod_def, Int.mul_comm]
  have hNonzero : x.units.tmod one ≠ 0 := hRest ▸ sub_ne_zero.mpr hDiffer
  have hRepresentable : Representable (x.units.tmod one).natAbs := by
    rw [Int.natAbs_tmod, Int.natAbs_natCast]
    exact representable_fraction x
  rw [sub_eq_ofUnits hx hy hDiffer, hRest]
  refine ⟨hRepresentable.isFinite_ofUnits _, ?_, ?_⟩
  · rw [hRepresentable.units_ofUnits]
    by_cases hNegative : x.units.tmod one < 0
    · rw [decide_eq_true hNegative, if_pos rfl]
      omega
    · rw [decide_eq_false hNegative, if_neg Bool.false_ne_true]
      omega
  · have hSome : x.units ≠ 0 := fun hZero => hNonzero (by rw [hZero, Int.zero_tmod])
    rw [negative_ofUnits, Bool.eq_iff_iff, decide_eq_true_iff, negative_iff hSome]
    rcases Int.lt_or_le x.units 0 with hNegative | hNatural
    · have hFlipped := Int.tmod_nonneg (one : ℤ) (Int.neg_nonneg_of_nonpos hNegative.le)
      rw [Int.neg_tmod] at hFlipped
      omega
    · have hKept := Int.tmod_nonneg (one : ℤ) hNatural
      omega

end TaggedRuntime.Binary64
