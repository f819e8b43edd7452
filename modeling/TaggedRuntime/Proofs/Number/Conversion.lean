import TaggedRuntime.Number
import TaggedRuntime.Proofs.Binary64.Rational

/-! Conversions from floating-point numbers to integers, against the rationals that the numbers
stand for. -/

namespace TaggedRuntime.Number

open Binary64 (one)

variable {x y : Binary64}

/-- A conversion gives the one integer that is its exact result, where this is an integer of 64
bits, and is refused everywhere else. -/
structure Yields (outcome : Except ErrorKind Int64) (exact : Int → Prop) : Prop where
  given : ∀ n : Int64, outcome = .ok n ↔ exact n.toInt
  refused : outcome = .error .numberToInteger ↔ ∀ k, -(2 ^ 63) ≤ k → k < 2 ^ 63 → ¬exact k

/-- What a conversion yields may be described in another way, as long as both agree on words. -/
theorem Yields.congr {outcome : Except ErrorKind Int64} {exact exact' : Int → Prop}
    (hYields : Yields outcome exact) (hSame : ∀ n : Int64, exact' n.toInt ↔ exact n.toInt) :
    Yields outcome exact' := by
  refine ⟨fun n => (hYields.given n).trans (hSame n).symm, hYields.refused.trans ?_⟩
  refine forall_congr' fun k => forall₂_congr fun hLow hHigh => not_congr ?_
  rw [← Int64.toInt_ofInt_of_le hLow hHigh]
  exact (hSame _).symm

/-- The conversion by units. Both bounds are compared as floats, and the upper one is a float
although the greatest word is none. -/
theorem toInteger_yields_units (x : Binary64) :
    Yields (toInteger x) fun k => x.isNaN = false ∧ x.units = k * one := by
  have hGiven (n : Int64) : toInteger x = .ok n ↔ x.isNaN = false ∧ x.units = n.toInt * one := by
    have hSome : toInteger x = .ok n ↔ x.toInt64? = some n := by
      unfold toInteger
      cases x.toInt64? <;> simp
    rw [hSome]
    cases hNaN : x.isNaN with
    | true =>
        have hUnequal : x.floor.eq x = false := by
          rw [Binary64.eq, hNaN, Bool.not_true, Bool.and_false, Bool.false_and]
        rw [Binary64.toInt64?, hUnequal, Bool.false_and, Bool.false_and,
          if_neg Bool.false_ne_true]
        exact iff_of_false (Option.some_ne_none n).symm
          fun hNumber => Bool.false_ne_true hNumber.1.symm
    | false => rw [Binary64.toInt64?_eq_some_iff hNaN, and_iff_right rfl]
  refine ⟨hGiven, ?_⟩
  cases hRun : toInteger x with
  | ok n =>
      refine iff_of_false (fun hRefused => by cases hRefused) fun hNone => ?_
      exact hNone n.toInt n.le_toInt n.toInt_lt ((hGiven n).mp hRun)
  | error e =>
      have hKind : e = .numberToInteger := by
        unfold toInteger at hRun
        split at hRun <;> cases hRun
        rfl
      subst hKind
      refine iff_of_true rfl fun k hLow hHigh hExact => ?_
      rw [← Int64.toInt_ofInt_of_le hLow hHigh, ← hGiven, hRun] at hExact
      cases hExact

/-- An infinity has more units than any 64-bit integer. -/
theorem isFinite_of_units {n : Int64} (hUnits : x.units = n.toInt * one) : x.isFinite = true :=
  Binary64.isFinite_of_in64 (Binary64.bounds_of_units hUnits).1 (Binary64.bounds_of_units hUnits).2

/-- A number is converted if it is an integer of 64 bits. What is infinite or no number is not. -/
theorem toInteger_yields (x : Binary64) :
    Yields (toInteger x) fun k => x.isFinite = true ∧ x.toRat = k := by
  refine (toInteger_yields_units x).congr fun n => ?_
  rw [Binary64.toRat_eq_iff]
  exact ⟨fun ⟨hFinite, hUnits⟩ => ⟨Binary64.isNaN_of_isFinite hFinite, hUnits⟩,
    fun ⟨_, hUnits⟩ => ⟨isFinite_of_units hUnits, hUnits⟩⟩

/-- An integral number gives the integer that it is, and what is not finite gives none. The integer
is taken of a part of the number `x`, which is the number itself where that is not finite. -/
theorem toInteger_yields_part {value : Int}
    (hWhole : x.isFinite = true → y.isFinite = true ∧ y.units = value * one)
    (hOther : x.isFinite = false → y = x) :
    Yields (toInteger y) fun k => x.isFinite = true ∧ value = k := by
  refine (toInteger_yields y).congr fun n => ?_
  rw [Binary64.toRat_eq_iff]
  cases hFinite : x.isFinite with
  | true =>
      obtain ⟨hy, hUnits⟩ := hWhole hFinite
      rw [hy, hUnits, Int.mul_eq_mul_right_iff Binary64.one_positive_int.ne']
  | false =>
      rw [hOther hFinite, hFinite]
      exact iff_of_false (fun hNumber => Bool.false_ne_true hNumber.1)
        fun hNumber => Bool.false_ne_true hNumber.1

theorem floorToInteger_yields (x : Binary64) :
    Yields (floorToInteger x) fun k => x.isFinite = true ∧ ⌊x.toRat⌋ = k := by
  rw [Binary64.floor_toRat]
  exact toInteger_yields_part
    (fun hFinite => ⟨Binary64.isFinite_floor hFinite, Binary64.units_floor hFinite⟩)
    fun hOther => by rw [Binary64.floor, hOther, if_neg Bool.false_ne_true]

theorem ceilToInteger_yields (x : Binary64) :
    Yields (ceilToInteger x) fun k => x.isFinite = true ∧ ⌈x.toRat⌉ = k := by
  rw [Binary64.ceil_toRat]
  exact toInteger_yields_part
    (fun hFinite => ⟨Binary64.isFinite_ceil hFinite, Binary64.units_ceil hFinite⟩)
    fun hOther => by rw [Binary64.ceil, hOther, if_neg Bool.false_ne_true]

/-! ### Integral part and fraction -/

/-- The integral part that a number is split at. -/
def wholePart (x : Binary64) : Binary64 := if x.lt (.zero false) then x.ceil else x.floor

/-- The parts of a number are the conversion of its whole part and what is left. An integral number
leaves a zero without a sign. -/
theorem splitParts_eq (x : Binary64) :
    splitParts x = (toInteger (wholePart x)).map fun n =>
      (n, if x.eq (wholePart x) then .zero false else x - wholePart x) := by
  change (do return (← toInteger (wholePart x), _)) = _
  cases toInteger (wholePart x) <;> rfl

/-- The whole part of a finite number is finite, and rounded towards zero. It is the floor or the
ceiling, as the sign says. -/
theorem wholePart_finite (hFinite : x.isFinite = true) :
    (wholePart x).isFinite = true ∧ (wholePart x).units = x.units.tdiv one * one := by
  have hUnit := Binary64.one_positive_int
  have hBelow : x.lt (.zero false) = true ↔ x.units < 0 := by
    have hZero : (Binary64.zero false).isNaN = false := rfl
    rw [Binary64.lt, Binary64.isNaN_of_isFinite hFinite, hZero, Binary64.units_zero]
    simp
  unfold wholePart
  split
  next hNegative =>
    rw [hBelow] at hNegative
    refine ⟨Binary64.isFinite_ceil hFinite, ?_⟩
    rw [Binary64.units_ceil hFinite, Int.fdiv_eq_tdiv_of_nonneg (by omega) hUnit.le, Int.neg_tdiv,
      Int.neg_neg]
  next hNatural =>
    rw [hBelow] at hNatural
    refine ⟨Binary64.isFinite_floor hFinite, ?_⟩
    rw [Binary64.units_floor hFinite, Int.fdiv_eq_tdiv_of_nonneg (by omega) hUnit.le]

theorem wholePart_other (hOther : x.isFinite = false) : wholePart x = x := by
  unfold wholePart Binary64.ceil Binary64.floor
  rw [hOther]
  split <;> rfl

/-- The fraction is what is left, exactly. -/
structure Fraction (x : Binary64) (n : Int64) (f : Binary64) : Prop where
  finite : f.isFinite = true
  value : f.toRat = x.toRat - n.toInt
  small : |f.toRat| < 1
  sign : f.isZero = true ∨ f.negative = x.negative

/-- The integral part is the number rounded towards zero, wherever that is a 64-bit integer. -/
theorem splitParts_yields (x : Binary64) :
    Yields ((splitParts x).map Prod.fst) fun k => x.isFinite = true ∧ towardZero x.toRat = k := by
  have hFirst : (splitParts x).map Prod.fst = toInteger (wholePart x) := by
    rw [splitParts_eq]
    cases toInteger (wholePart x) <;> rfl
  rw [hFirst, Binary64.towardZero_toRat]
  exact toInteger_yields_part wholePart_finite wholePart_other

/-- The fraction is what is left, exactly. Nothing is rounded in the subtraction, because the
fraction has no more bits than the number. -/
theorem fraction_of_splitParts {n : Int64} {f : Binary64} (hRun : splitParts x = .ok (n, f)) :
    Fraction x n f := by
  have hFirst : (splitParts x).map Prod.fst = .ok n := by rw [hRun]; rfl
  obtain ⟨hFinite, hWhole⟩ := ((splitParts_yields x).given n).mp hFirst
  obtain ⟨hPart, hUnits⟩ := wholePart_finite hFinite
  have hSecond : f = if x.eq (wholePart x) then .zero false else x - wholePart x := by
    rw [splitParts_eq] at hRun
    cases hInteger : toInteger (wholePart x) with
    | ok m =>
        rw [hInteger] at hRun
        cases hRun
        rfl
    | error e =>
        rw [hInteger] at hRun
        cases hRun
  have hRest : f.isFinite = true ∧ f.units = x.units.tmod one ∧
      (f.isZero = true ∨ f.negative = x.negative) := by
    rw [hSecond]
    have hEq := Binary64.eq_iff (Binary64.isNaN_of_isFinite hFinite)
      (Binary64.isNaN_of_isFinite hPart)
    split
    next hIntegral =>
      refine ⟨rfl, ?_, .inl rfl⟩
      rw [Binary64.units_zero, Int.tmod_def, Int.mul_comm, ← hUnits, ← hEq.mp hIntegral,
        Int.sub_self]
    next hFractional =>
      obtain ⟨hRestFinite, hRestUnits, hSign⟩ :=
        Binary64.sub_integralPart hFinite hPart hUnits (mt hEq.mpr hFractional)
      exact ⟨hRestFinite, hRestUnits, .inr hSign⟩
  obtain ⟨hValue, hSmall⟩ := Binary64.toRat_fraction hRest.2.1
  rw [← Binary64.towardZero_toRat, hWhole] at hValue
  exact ⟨hRest.1, hValue, hSmall, hRest.2.2⟩

/-- A number gives the integer that it is, its ceiling, its floor, or its integral part towards
zero, exactly where it is finite and that integer is one of 64 bits; every other number is refused.
With the integral part comes the fraction that is left, which is exact. -/
theorem conversions_exact (x : Binary64) :
    Yields (toInteger x) (fun k => x.isFinite = true ∧ x.toRat = k) ∧
    Yields (ceilToInteger x) (fun k => x.isFinite = true ∧ ⌈x.toRat⌉ = k) ∧
    Yields (floorToInteger x) (fun k => x.isFinite = true ∧ ⌊x.toRat⌋ = k) ∧
    Yields ((splitParts x).map Prod.fst) (fun k => x.isFinite = true ∧ towardZero x.toRat = k) ∧
    ∀ n f, splitParts x = .ok (n, f) → Fraction x n f :=
  ⟨toInteger_yields x, ceilToInteger_yields x, floorToInteger_yields x, splitParts_yields x,
    fun _ _ => fraction_of_splitParts⟩

/-- The number before minus three has the integral part minus three and a fraction of one unit in
the last place. -/
theorem conversions_exact_before : ∃ f, splitParts ⟨0xc008000000000001⟩ = .ok (-3, f) ∧
    f = ⟨0xbcc0000000000000⟩ ∧ Fraction ⟨0xc008000000000001⟩ (-3) f := by
  have hRun : splitParts ⟨0xc008000000000001⟩ = .ok (-3, ⟨0xbcc0000000000000⟩) := by
    decide +kernel
  exact ⟨_, hRun, rfl, (conversions_exact ⟨0xc008000000000001⟩).2.2.2.2 _ _ hRun⟩

end TaggedRuntime.Number
