import Mathlib.Tactic.Ring
import TaggedRuntime.Binary64.Arithmetic
import TaggedRuntime.Proofs.Words

/-! Numbers of units that a word can stand for. Each such number has one magnitude,
and rounding it gives that magnitude back, so arithmetic whose exact result is one
of them rounds nothing. -/

namespace TaggedRuntime.Binary64

variable {m n : Nat} {x y : Binary64}

/-! ### Magnitudes -/

theorem unitsOfMagnitude_of_lt (h : m < twoPow 52) : unitsOfMagnitude m = m := by
  rw [unitsOfMagnitude, if_pos (Nat.div_eq_of_lt h)]

/-- A normal magnitude has an implied bit above its fraction, and as many zeros behind it as the
exponent says, less one. -/
theorem unitsOfMagnitude_of_le (h : twoPow 52 ≤ m) :
    unitsOfMagnitude m = (twoPow 52 + m % twoPow 52) * twoPow (m / twoPow 52 - 1) := by
  have hExponent : 0 < m / twoPow 52 := Nat.div_pos h (twoPow_pos 52)
  rw [unitsOfMagnitude, if_neg (Nat.ne_of_gt hExponent)]

/-- The units of a magnitude have fifty-three bits, behind zeros as the exponent says. So the
exponent of a normal number is read back from its units. -/
theorem log2_unitsOfMagnitude (h : twoPow 52 ≤ m) :
    (unitsOfMagnitude m).log2 = 52 + (m / twoPow 52 - 1) := by
  rw [unitsOfMagnitude_of_le h]
  generalize m / twoPow 52 - 1 = e
  have hFraction : m % twoPow 52 < twoPow 52 := Nat.mod_lt m (twoPow_pos 52)
  generalize m % twoPow 52 = f at hFraction
  have hPos := twoPow_pos e
  have hLow : twoPow (52 + e) ≤ (twoPow 52 + f) * twoPow e := by
    rw [twoPow_add]
    exact Nat.mul_le_mul_right _ (Nat.le_add_right _ _)
  have hHigh : (twoPow 52 + f) * twoPow e < twoPow (52 + e + 1) := by
    rw [twoPow_succ (52 + e), twoPow_add, ← Nat.mul_assoc]
    exact Nat.mul_lt_mul_of_pos_right (by omega) hPos
  exact (Nat.log2_eq_iff (by have := twoPow_pos (52 + e); omega)).mpr ⟨hLow, hHigh⟩

theorem roundHalfEven_mul (n : Nat) {den : Nat} (hDen : 0 < den) :
    roundHalfEven (n * den) den = n := by
  simp [roundHalfEven, Nat.mul_div_cancel n hDen, hDen]

/-- Rounding the units of a magnitude gives the magnitude back. This includes the magnitude of
infinity, whose units are those of the next power of two. -/
theorem magnitudeOfUnits_unitsOfMagnitude (h : m ≤ infinite) :
    magnitudeOfUnits (unitsOfMagnitude m) 1 = m := by
  simp only [magnitudeOfUnits, excess, Nat.div_one, Nat.one_mul]
  rcases Nat.lt_or_ge m (twoPow 52) with hSmall | hLarge
  · have hLog : m.log2 - 52 = 0 := by
      rcases Nat.eq_zero_or_pos m with rfl | hPos
      · rfl
      · have hBits : m.log2 < 52 := (Nat.log2_lt (Nat.ne_of_gt hPos)).mpr hSmall
        omega
    have hExact := roundHalfEven_mul m Nat.one_pos
    rw [Nat.mul_one] at hExact
    have hUnit : twoPow 0 = 1 := rfl
    rw [unitsOfMagnitude_of_lt hSmall, hLog, hUnit, hExact]
    omega
  · have hPlace := Nat.div_add_mod' m (twoPow 52)
    have hExponent : 0 < m / twoPow 52 := Nat.div_pos hLarge (twoPow_pos 52)
    rw [log2_unitsOfMagnitude hLarge, Nat.add_sub_cancel_left, unitsOfMagnitude_of_le hLarge,
      roundHalfEven_mul _ (twoPow_pos _)]
    obtain ⟨e, he⟩ : ∃ e, m / twoPow 52 = e + 1 := ⟨m / twoPow 52 - 1, by omega⟩
    rw [he] at hPlace ⊢
    rw [Nat.add_sub_cancel]
    rw [Nat.succ_mul] at hPlace
    omega

/-- A number of units is the number of one magnitude at most. -/
theorem unitsOfMagnitude_inj (hm : m ≤ infinite) (hn : n ≤ infinite)
    (h : unitsOfMagnitude m = unitsOfMagnitude n) : m = n := by
  rw [← magnitudeOfUnits_unitsOfMagnitude hm, h, magnitudeOfUnits_unitsOfMagnitude hn]

/-- Units in infinity, and the least number of units that no finite number has. -/
def infiniteUnits : Nat := twoPow 2098

/-- Magnitudes from that of infinity on count at least as many units. Together with the order of
magnitudes this says which numbers of units overflow. -/
theorem infiniteUnits_le (h : infinite ≤ m) : infiniteUnits ≤ unitsOfMagnitude m := by
  have hExponent : 0x7ff ≤ m / twoPow 52 := (Nat.le_div_iff_mul_le (twoPow_pos 52)).mpr h
  have hNormal : twoPow 52 ≤ m := Nat.le_trans (by decide) h
  rw [unitsOfMagnitude_of_le hNormal, infiniteUnits]
  calc
    twoPow 2098 = twoPow 52 * twoPow 2046 := twoPow_add 52 2046
    _ ≤ (twoPow 52 + m % twoPow 52) * twoPow (m / twoPow 52 - 1) :=
      Nat.mul_le_mul (Nat.le_add_right _ _) (twoPow_le_twoPow (by omega))

/-! ### Numbers that have a magnitude -/

/-- A number of units that a finite number has. -/
def Representable (n : Nat) : Prop := ∃ m < infinite, unitsOfMagnitude m = n

/-- Fifty-three bits and any number of zeros behind them are representable. The number has to be
below the units of infinity, and nothing is asked of its exponent beyond that. -/
theorem representable_mul {significand exponent : Nat} (hBits : significand < twoPow 53)
    (hFinite : significand * twoPow exponent < infiniteUnits) :
    Representable (significand * twoPow exponent) := by
  generalize hUnits : significand * twoPow exponent = n at hFinite ⊢
  suffices h : ∃ m, unitsOfMagnitude m = n by
    obtain ⟨m, hm⟩ := h
    refine ⟨m, ?_, hm⟩
    by_contra hLarge
    have hPast := infiniteUnits_le (Nat.le_of_not_lt hLarge)
    omega
  rcases Nat.lt_or_ge n (twoPow 52) with hSmall | hLarge
  · exact ⟨n, unitsOfMagnitude_of_lt hSmall⟩
  · -- All but the first fifty-three bits are among the zeros.
    have hNonzero : n ≠ 0 := Nat.ne_of_gt (Nat.lt_of_lt_of_le (twoPow_pos 52) hLarge)
    have hLog : 52 ≤ n.log2 := (Nat.le_log2 hNonzero).mpr hLarge
    obtain ⟨shift, hShift⟩ := Nat.exists_eq_add_of_le hLog
    obtain ⟨hLow, hHigh⟩ := (Nat.log2_eq_iff hNonzero).mp hShift
    have hZeros : shift ≤ exponent := by
      by_contra hLess
      have hBelow : n < twoPow (53 + exponent) := by
        rw [← hUnits, twoPow_add]
        exact Nat.mul_lt_mul_of_pos_right hBits (twoPow_pos exponent)
      have hAbove : twoPow (53 + exponent) ≤ 2 ^ (52 + shift) :=
        twoPow_le_twoPow (by omega)
      omega
    obtain ⟨more, rfl⟩ := Nat.exists_eq_add_of_le hZeros
    have hSplit : n = significand * twoPow more * twoPow shift := by
      rw [← hUnits, Nat.add_comm, twoPow_add, Nat.mul_assoc]
    generalize significand * twoPow more = s at hSplit
    have hPos := twoPow_pos shift
    have hFirst : twoPow 52 ≤ s := by
      apply Nat.le_of_mul_le_mul_right _ hPos
      rw [← twoPow_add, ← hSplit]
      exact hLow
    have hLast : s < twoPow 53 := by
      apply Nat.lt_of_mul_lt_mul_right (a := twoPow shift)
      rw [← twoPow_add, ← hSplit]
      exact Nat.lt_of_lt_of_le hHigh (twoPow_le_twoPow (by omega))
    obtain ⟨f, rfl⟩ := Nat.exists_eq_add_of_le hFirst
    have hFraction : f < twoPow 52 := by
      rw [twoPow_succ 52] at hLast
      omega
    have hExponent : (f + twoPow 52 * (shift + 1)) / twoPow 52 = shift + 1 := by
      rw [Nat.add_mul_div_left _ _ (twoPow_pos 52), Nat.div_eq_of_lt hFraction, Nat.zero_add]
    refine ⟨f + twoPow 52 * (shift + 1), ?_⟩
    rw [unitsOfMagnitude, if_neg (by omega), hExponent, Nat.add_mul_mod_self_left,
      Nat.mod_eq_of_lt hFraction, Nat.add_sub_cancel, hSplit]

/-! ### Words -/

/-- The word of a sign and a magnitude, as a number: the sign is the highest bit. -/
theorem toNat_ofMagnitude (b : Bool) (h : m < twoPow 63) :
    (ofMagnitude b m).bits.toNat = if b then twoPow 63 + m else m := by
  have hHalf : twoPow 63 + twoPow 63 = 2 ^ 64 := rfl
  unfold ofMagnitude
  rw [UInt64.toNat_ofNat']
  apply Nat.mod_eq_of_lt
  split <;> omega

/-- The magnitude is read back from the word, if it has no bit in the place of the sign. -/
@[simp] theorem magnitude_ofMagnitude (b : Bool) (h : m < twoPow 63) :
    (ofMagnitude b m).magnitude = m := by
  rw [magnitude, toNat_ofMagnitude b h]
  cases b with
  | true => rw [if_pos rfl, Nat.add_mod_left, Nat.mod_eq_of_lt h]
  | false => exact Nat.mod_eq_of_lt h

@[simp] theorem negative_ofMagnitude (b : Bool) (h : m < twoPow 63) :
    (ofMagnitude b m).negative = b := by
  rw [negative, toNat_ofMagnitude b h]
  cases b with
  | true => simp
  | false => simpa using h

/-- A word is its sign and its magnitude. -/
theorem ext_magnitude (hSign : x.negative = y.negative) (hMagnitude : x.magnitude = y.magnitude) :
    x = y := by
  obtain ⟨a⟩ := x
  obtain ⟨b⟩ := y
  have ha := a.toNat_lt
  have hb := b.toNat_lt
  have hHalf : twoPow 63 = 2 ^ 63 := rfl
  simp only [negative, magnitude, decide_eq_decide, hHalf] at hSign hMagnitude
  rw [mk.injEq, ← UInt64.toNat_inj]
  omega

theorem units_ofMagnitude (b : Bool) (h : m < twoPow 63) : (ofMagnitude b m).units =
    if b then -(unitsOfMagnitude m : Int) else unitsOfMagnitude m := by
  rw [units, negative_ofMagnitude b h, magnitude_ofMagnitude b h]

theorem isNaN_eq_false_iff (x : Binary64) : x.isNaN = false ↔ x.magnitude ≤ infinite := by
  simp [isNaN]

theorem natAbs_units (x : Binary64) : x.units.natAbs = unitsOfMagnitude x.magnitude := by
  unfold units
  split <;> simp

/-- The sign of a word is that of its units. A zero has none to speak of, so it is left out. -/
theorem negative_iff (hNonzero : x.units ≠ 0) : x.negative = true ↔ x.units < 0 := by
  unfold units at hNonzero ⊢
  split at hNonzero
  next hNegative =>
    rw [if_pos hNegative]
    exact iff_of_true hNegative (by omega)
  next hNatural =>
    rw [if_neg hNatural]
    exact iff_of_false hNatural (by omega)

/-- Numbers that are no zeros are equal only as words. -/
theorem eq_of_units (hx : x.isNaN = false) (hy : y.isNaN = false) (hNonzero : x.units ≠ 0)
    (h : x.units = y.units) : x = y := by
  have hMagnitude : x.magnitude = y.magnitude := by
    apply unitsOfMagnitude_inj ((isNaN_eq_false_iff x).mp hx) ((isNaN_eq_false_iff y).mp hy)
    rw [← natAbs_units, ← natAbs_units, h]
  have hSign : x.negative = y.negative := by
    rw [Bool.eq_iff_iff, negative_iff hNonzero, negative_iff (h ▸ hNonzero), h]
  exact ext_magnitude hSign hMagnitude

/-- Rounding never reaches the bit of the sign. What is too large becomes infinite before that. -/
theorem magnitudeOfUnits_lt (num den : Nat) : magnitudeOfUnits num den < twoPow 63 :=
  Nat.lt_of_le_of_lt (Nat.min_le_left _ _) (by decide)

theorem isNaN_ofUnits (b : Bool) (num den : Nat) : (ofUnits b num den).isNaN = false := by
  rw [isNaN_eq_false_iff, ofUnits, magnitude_ofMagnitude b (magnitudeOfUnits_lt num den)]
  exact Nat.min_le_left _ _

/-- A number of units that a finite number has is not changed by rounding. -/
theorem Representable.units_ofUnits (h : Representable n) (b : Bool) : (ofUnits b n 1).units =
    if b then -(n : Int) else n := by
  obtain ⟨m, hFinite, rfl⟩ := h
  rw [ofUnits, units_ofMagnitude b (magnitudeOfUnits_lt _ _),
    magnitudeOfUnits_unitsOfMagnitude (Nat.le_of_lt hFinite)]

end TaggedRuntime.Binary64
