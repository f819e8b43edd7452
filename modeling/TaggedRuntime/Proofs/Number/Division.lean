import TaggedRuntime.Number
import TaggedRuntime.Proofs.Words
import TaggedRuntime.Proofs.Quotient

/-! Division and remainder of words are those of the integers that the words stand for, rounded
to the floor. The corrections of the machine quotient and remainder fit where they are made. -/

namespace TaggedRuntime.Number

open Checked (div? rem? sub? add?)

variable {m n : Int64}

/-- Floor division with every step checked, but for the sum and the negation that are to wrap. -/
def floorDiv? (m n : Int64) : Option (Except ErrorKind Int64) :=
  if n.toUInt64 + 1 ≤ 1 then
    if n = 0 then some (.error .divideByZero) else some (.ok (-m))
  else do
    let q ← div? m n
    if signsDiffer m n then
      let r ← rem? m n
      return .ok (← if r ≠ 0 then sub? q 1 else some q)
    else return .ok q

/-- Floor modulo with every step checked. -/
def floorMod? (m n : Int64) : Option (Except ErrorKind Int64) :=
  if n.toUInt64 + 1 ≤ 1 then
    if n = 0 then some (.error .moduloByZero) else some (.ok 0)
  else do
    let r ← rem? m n
    return .ok (← if r ≠ 0 && signsDiffer m n then add? r n else some r)

/-! ### The guard and the signs -/

/-- One unsigned comparison finds the two divisors that are handled apart. -/
theorem guard_iff (n : Int64) : n.toUInt64 + 1 ≤ 1 ↔ n = 0 ∨ n = -1 := by
  have hWord := toInt_eq_toNat_cond n
  have hLt := n.toUInt64.toNat_lt
  have hUnit : (1 : UInt64).toNat = 1 := rfl
  have hZero : (0 : Int64).toInt = 0 := rfl
  have hMinusOne : (-1 : Int64).toInt = -1 := rfl
  rw [UInt64.le_iff_toNat_le, UInt64.toNat_add, hUnit, ← Int64.toInt_inj, ← Int64.toInt_inj, hZero,
    hMinusOne]
  split at hWord <;> omega

/-- Whether the signs differ is read off the highest bit. Zero counts as positive on both sides. -/
theorem signsDiffer_iff (m n : Int64) :
    signsDiffer m n = true ↔ (m.toInt < 0 ↔ 0 ≤ n.toInt) := by
  have hSign (a : Int64) : a.toBitVec.msb = true ↔ a.toInt < 0 := by
    rw [BitVec.msb_eq_toInt, decide_eq_true_iff]
    rfl
  have hDiffer : (m ^^^ n).toInt < 0 ↔ m.toBitVec.msb ≠ n.toBitVec.msb := by
    rw [← hSign, Int64.toBitVec_xor, BitVec.msb_xor, Bool.xor_iff_ne]
  have hZero : (0 : Int64).toInt = 0 := rfl
  rw [signsDiffer, decide_eq_true_iff, Int64.lt_iff_toInt_lt, hZero, hDiffer, ne_eq,
    Bool.eq_iff_iff, hSign, hSign]
  omega

/-! ### Words -/

theorem rest_iff (m n : Int64) : m % n ≠ 0 ↔ m.toInt.tmod n.toInt ≠ 0 := by
  rw [← Int64.toInt_mod, ne_eq, ← Int64.toInt_inj]
  rfl

/-- The quotient is corrected exactly where the truncated one is too large. -/
theorem corrected_iff (m n : Int64) : signsDiffer m n = true ∧ m % n ≠ 0 ↔
    (m.toInt < 0 ↔ 0 ≤ n.toInt) ∧ m.toInt.tmod n.toInt ≠ 0 := by
  rw [signsDiffer_iff, rest_iff]

theorem toInt_ne_zero (hZero : n ≠ 0) : n.toInt ≠ 0 := fun h => hZero (Int64.toInt_inj.mp h)

/-- Where a remainder is left the quotient is not the least word. -/
theorem pred_quotient (hZero : n ≠ 0) (hMinusOne : n ≠ -1) (hRest : m % n ≠ 0) :
    sub? (m / n) 1 = some (m / n - 1) := by
  have hLow := m.le_toInt
  have hHigh := m.toInt_lt
  have hOne : (1 : Int64).toInt = 1 := rfl
  have hQuotient := Int64.toInt_div_of_ne_right m n hMinusOne
  have hSmall := tdiv_bounds (by omega) ((rest_iff m n).mp hRest) (toInt_ne_zero hZero)
  apply Checked.sub?_eq <;> omega

/-- A remainder has the sign of the dividend, so it moves towards zero where the signs differ. The
sum of a remainder and a divisor of the other sign is within the words. -/
theorem remainder_add (hSigns : signsDiffer m n = true) : add? (m % n) n = some (m % n + n) := by
  have hLow := (m % n).le_toInt
  have hHigh := (m % n).toInt_lt
  have hLow' := n.le_toInt
  have hHigh' := n.toInt_lt
  rw [signsDiffer_iff] at hSigns
  have hSign : (0 ≤ m.toInt → 0 ≤ (m % n).toInt) ∧ (m.toInt < 0 → (m % n).toInt ≤ 0) := by
    rw [Int64.toInt_mod]
    refine ⟨Int.tmod_nonneg _, fun hNegative => ?_⟩
    have hFlipped := Int.tmod_nonneg n.toInt (Int.neg_nonneg_of_nonpos (Int.le_of_lt hNegative))
    rw [Int.neg_tmod] at hFlipped
    omega
  apply Checked.add?_eq <;> omega

/-- No checked step of a division can fail. The correction is made only where the quotient is not
the least word. -/
theorem floorDiv?_eq (m n : Int64) : floorDiv? m n = some (floorDiv m n) := by
  unfold floorDiv? floorDiv
  split
  next => split <;> rfl
  next hGuard =>
    obtain ⟨hZero, hMinusOne⟩ := not_or.mp (mt (guard_iff n).mpr hGuard)
    rw [Checked.div?_eq hZero hMinusOne, Checked.rem?_eq hZero hMinusOne]
    cases hSigns : signsDiffer m n with
    | false => rfl
    | true =>
        by_cases hRest : m % n = 0
        · simp [hRest]
        · simp [hRest, pred_quotient hZero hMinusOne hRest]

/-- No checked step of a remainder can fail either. -/
theorem floorMod?_eq (m n : Int64) : floorMod? m n = some (floorMod m n) := by
  unfold floorMod? floorMod
  split
  next => split <;> rfl
  next hGuard =>
    obtain ⟨hZero, hMinusOne⟩ := not_or.mp (mt (guard_iff n).mpr hGuard)
    rw [Checked.rem?_eq hZero hMinusOne]
    cases hSigns : signsDiffer m n with
    | false => simp
    | true =>
        by_cases hRest : m % n = 0
        · simp [hRest]
        · simp [hRest, remainder_add hSigns]

/-- A word that a checked step gives is the integer of that step. -/
theorem toInt_pred_quotient (hZero : n ≠ 0) (hMinusOne : n ≠ -1) (hRest : m % n ≠ 0) :
    (m / n - 1).toInt = m.toInt.tdiv n.toInt - 1 := by
  have hWord := Checked.word?_eq_some_iff.mp (pred_quotient hZero hMinusOne hRest)
  rwa [Int64.toInt_div_of_ne_right m n hMinusOne] at hWord

/-- The corrected remainder is the corrected one of the integers. The sum is within the words since
the signs differ. -/
theorem toInt_remainder_add (hSigns : signsDiffer m n = true) :
    (m % n + n).toInt = m.toInt.tmod n.toInt + n.toInt := by
  have hWord := Checked.word?_eq_some_iff.mp (remainder_add hSigns)
  rwa [Int64.toInt_mod] at hWord

/-- A quotient is the floor of the exact one, reduced to a word. Only one quotient is changed by
that. -/
theorem floorDiv_eq (m : Int64) (hZero : n ≠ 0) :
    floorDiv m n = .ok (Int64.ofInt (m.toInt.fdiv n.toInt)) := by
  by_cases hMinusOne : n = -1
  · subst hMinusOne
    have hFloor : m.toInt.fdiv (-1 : Int64).toInt = -m.toInt := by
      change m.toInt.fdiv (-1) = _
      rw [← Int.neg_fdiv_neg, Int.neg_neg, Int.fdiv_one]
    rw [floorDiv, if_pos ((guard_iff _).mpr (.inr rfl)), if_neg hZero, hFloor, Int64.ofInt_neg,
      Int64.ofInt_toInt]
  · have hGuard : ¬n.toUInt64 + 1 ≤ 1 := mt (guard_iff n).mp (not_or.mpr ⟨hZero, hMinusOne⟩)
    rw [floorDiv, if_neg hGuard, fdiv_eq_corrected _ (toInt_ne_zero hZero)]
    simp only [Bool.and_eq_true, decide_eq_true_eq]
    by_cases hCorrected : signsDiffer m n = true ∧ m % n ≠ 0
    · rw [if_pos hCorrected, if_pos ((corrected_iff m n).mp hCorrected),
        ← toInt_pred_quotient hZero hMinusOne hCorrected.2, Int64.ofInt_toInt]
    · rw [if_neg hCorrected, if_neg (mt (corrected_iff m n).mpr hCorrected),
        ← Int64.toInt_div_of_ne_right m n hMinusOne, Int64.ofInt_toInt]

/-- A remainder is the floor remainder, and always a word. -/
theorem floorMod_eq (m : Int64) (hZero : n ≠ 0) :
    floorMod m n = .ok (Int64.ofInt (m.toInt.fmod n.toInt)) := by
  by_cases hMinusOne : n = -1
  · subst hMinusOne
    have hExact : m.toInt.fmod (-1 : Int64).toInt = 0 :=
      Int.fmod_eq_zero_of_dvd (Int.neg_dvd.mpr (Int.one_dvd _))
    rw [floorMod, if_pos ((guard_iff _).mpr (.inr rfl)), if_neg hZero, hExact]
    rfl
  · have hGuard : ¬n.toUInt64 + 1 ≤ 1 := mt (guard_iff n).mp (not_or.mpr ⟨hZero, hMinusOne⟩)
    rw [floorMod, if_neg hGuard, fmod_eq_corrected _ (toInt_ne_zero hZero)]
    simp only [Bool.and_eq_true, decide_eq_true_eq, and_comm (b := signsDiffer m n = true)]
    by_cases hCorrected : signsDiffer m n = true ∧ m % n ≠ 0
    · rw [if_pos hCorrected, if_pos ((corrected_iff m n).mp hCorrected),
        ← toInt_remainder_add hCorrected.1, Int64.ofInt_toInt]
    · rw [if_neg hCorrected, if_neg (mt (corrected_iff m n).mpr hCorrected), ← Int64.toInt_mod,
        Int64.ofInt_toInt]

/-- Only the quotient of the least integer and minus one is past the words. It is one more than the
greatest word, and it wraps to the least. -/
theorem toInt_ofInt_fdiv (m n : Int64) (hZero : n ≠ 0) :
    (Int64.ofInt (m.toInt.fdiv n.toInt)).toInt = m.toInt.fdiv n.toInt ↔
      ¬(m = Int64.minValue ∧ n = -1) := by
  have hLow := m.le_toInt
  have hHigh := m.toInt_lt
  have hLow' := n.le_toInt
  have hHigh' := n.toInt_lt
  have hSmall := Int.natAbs_fdiv_le_natAbs m.toInt n.toInt
  have hSplit := Int.mul_fdiv_add_fmod m.toInt n.toInt
  have hRest := (fmod_bounds m.toInt (toInt_ne_zero hZero)).2
  have hLeast : (Int64.minValue).toInt = -2 ^ 63 := rfl
  have hMinusOne : (-1 : Int64).toInt = -1 := rfl
  rw [← Int64.toInt_inj (x := m), ← Int64.toInt_inj (x := n), hLeast, hMinusOne]
  constructor
  · rintro hFits ⟨hm, hn⟩
    have hHigh'' := (Int64.ofInt (m.toInt.fdiv n.toInt)).toInt_lt
    rw [hFits, hm, hn] at hHigh''
    exact absurd hHigh'' (by decide)
  · intro hOther
    refine Int64.toInt_ofInt_of_le (by omega) ?_
    by_contra hPast
    have hMost : m.toInt.fdiv n.toInt = 2 ^ 63 := by omega
    rw [hMost] at hSplit
    omega

/-- Division fails by zero and only there. Otherwise the quotient is the floor of the exact one, and
fits but for the least integer over minus one, where it wraps; the remainder is what the floor
leaves, has the sign of the divisor, and is less. No step on the way wraps or traps unless it is
meant to. -/
theorem division_exact (m n : Int64) :
    (floorDiv m n = .error .divideByZero ↔ n = 0) ∧
    (floorMod m n = .error .moduloByZero ↔ n = 0) ∧
    floorDiv? m n = some (floorDiv m n) ∧ floorMod? m n = some (floorMod m n) ∧
    (n ≠ 0 → ∃ q r, floorDiv m n = .ok q ∧ floorMod m n = .ok r ∧
      q = Int64.ofInt ⌊(m.toInt : ℚ) / n.toInt⌋ ∧
      (q.toInt = ⌊(m.toInt : ℚ) / n.toInt⌋ ↔ ¬(m = Int64.minValue ∧ n = -1)) ∧
      r.toInt = m.toInt - n.toInt * ⌊(m.toInt : ℚ) / n.toInt⌋ ∧
      (r = 0 ∨ (r < 0 ↔ n < 0)) ∧ r.toInt.natAbs < n.toInt.natAbs ∧ m = n * q + r) := by
  refine ⟨⟨fun hFails => ?_, ?_⟩, ⟨fun hFails => ?_, ?_⟩, floorDiv?_eq m n, floorMod?_eq m n,
    fun hZero => ?_⟩
  · by_contra hZero
    rw [floorDiv_eq m hZero] at hFails
    cases hFails
  · rintro rfl
    rfl
  · by_contra hZero
    rw [floorMod_eq m hZero] at hFails
    cases hFails
  · rintro rfl
    rfl
  · obtain ⟨hSign, hLess⟩ := fmod_bounds m.toInt (toInt_ne_zero hZero)
    have hRest : (Int64.ofInt (m.toInt.fmod n.toInt)).toInt = m.toInt.fmod n.toInt := by
      have hLow := n.le_toInt
      have hHigh := n.toInt_lt
      exact Int64.toInt_ofInt_of_le (by omega) (by omega)
    have hZeroInt : (0 : Int64).toInt = 0 := rfl
    rw [floor_div]
    refine ⟨_, _, floorDiv_eq m hZero, floorMod_eq m hZero, rfl, toInt_ofInt_fdiv m n hZero, ?_, ?_,
      ?_, ?_⟩
    · rw [hRest, Int.fmod_def]
    · rw [← Int64.toInt_inj, Int64.lt_iff_toInt_lt, Int64.lt_iff_toInt_lt, hRest, hZeroInt]
      exact hSign
    · rw [hRest]
      exact hLess
    · calc m
        _ = Int64.ofInt (n.toInt * m.toInt.fdiv n.toInt + m.toInt.fmod n.toInt) := by
          rw [Int.mul_fdiv_add_fmod, Int64.ofInt_toInt]
        _ = n * Int64.ofInt (m.toInt.fdiv n.toInt) + Int64.ofInt (m.toInt.fmod n.toInt) := by
          rw [Int64.ofInt_add, Int64.ofInt_mul, Int64.ofInt_toInt]

/-- The one quotient that does not fit. -/
theorem division_exact_least : (-1 : Int64) ≠ 0 ∧ ∃ q r,
    floorDiv Int64.minValue (-1) = .ok q ∧ floorMod Int64.minValue (-1) = .ok r ∧
    q = Int64.minValue ∧ r = 0 ∧
    q.toInt ≠ ⌊((Int64.minValue).toInt : ℚ) / (-1 : Int64).toInt⌋ ∧
    Int64.minValue = -1 * q + r := by
  have hZero : (-1 : Int64) ≠ 0 := by decide
  obtain ⟨q, r, hDiv, hMod, _, hFits, _, _, _, hWhole⟩ :=
    (division_exact Int64.minValue (-1)).2.2.2.2 hZero
  refine ⟨hZero, q, r, hDiv, hMod, ?_, ?_, fun hSame => hFits.mp hSame ⟨rfl, rfl⟩, hWhole⟩
  · cases hDiv
    rfl
  · cases hMod
    rfl

example : floorDiv (-7) 2 = .ok (-4) ∧ floorMod (-7) 2 = .ok 1 ∧ floorMod 7 (-2) = .ok (-1) := by
  decide

end TaggedRuntime.Number
