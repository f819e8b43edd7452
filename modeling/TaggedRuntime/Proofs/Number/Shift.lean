import Mathlib.Data.Rat.Floor
import TaggedRuntime.Number
import TaggedRuntime.Proofs.Words

/-! Shifts are multiplications of the unsigned word by powers of two, positive and negative. What is
not integral is lost on the one side, and what is past the width on the other. -/

namespace TaggedRuntime.Number

variable {x y : Int64} {u k : ℕ}

/-- A number times a power of two: its integral part, and of this what a word holds. -/
def scaled (u : ℕ) (n : ℤ) : ℤ := ⌊(u : ℚ) * 2 ^ n⌋ % 2 ^ 64

/-- Scaling up by a power of two loses the bits that go past the width. -/
theorem scaled_natCast (u k : ℕ) : scaled u k = (u * 2 ^ k % 2 ^ 64 : ℕ) := by
  have hWhole : (u : ℚ) * 2 ^ (k : ℤ) = ((u * 2 ^ k : ℕ) : ℤ) := by
    rw [zpow_natCast]
    push_cast
    rfl
  rw [scaled, hWhole, Int.floor_intCast]
  push_cast
  rfl

/-- Scaling down by a power of two loses the bits that go below one. A word is less than the number
of words, so nothing else is lost. -/
theorem scaled_neg_natCast (hWord : u < 2 ^ 64) (k : ℕ) : scaled u (-k) = (u / 2 ^ k : ℕ) := by
  have hQuotient : (u : ℚ) * 2 ^ (-k : ℤ) = (u : ℤ) / (2 ^ k : ℕ) := by
    rw [zpow_neg, zpow_natCast, ← div_eq_mul_inv]
    push_cast
    rfl
  have hLess : u / 2 ^ k < 2 ^ 64 := (Nat.div_le_self u _).trans_lt hWord
  rw [scaled, hQuotient, Rat.floor_intCast_div_natCast]
  exact_mod_cast Nat.mod_eq_of_lt hLess

theorem mul_past (u : ℕ) (hWidth : 64 ≤ k) : u * 2 ^ k % 2 ^ 64 = 0 :=
  Nat.mod_eq_zero_of_dvd (Dvd.dvd.mul_left (pow_dvd_pow 2 hWidth) u)

theorem div_past (hWord : u < 2 ^ 64) (hWidth : 64 ≤ k) : u / 2 ^ k = 0 :=
  Nat.div_eq_of_lt (hWord.trans_le (Nat.pow_le_pow_right (by decide) hWidth))

/-- By its width a word is shifted out, on either side. -/
theorem scaled_eq_zero (hWord : u < 2 ^ 64) {n : ℤ} (hWidth : 64 ≤ |n|) : scaled u n = 0 := by
  obtain ⟨k, rfl | rfl⟩ := n.eq_nat_or_neg
  · rw [Nat.abs_cast] at hWidth
    rw [scaled_natCast, mul_past u (by exact_mod_cast hWidth), Nat.cast_zero]
  · rw [abs_neg, Nat.abs_cast] at hWidth
    rw [scaled_neg_natCast hWord, div_past hWord (by exact_mod_cast hWidth), Nat.cast_zero]

/-! ### Amounts -/

/-- The one unsigned comparison leaves out the negative amounts too. -/
theorem withinWidth_iff (y : Int64) : withinWidth y = true ↔ 0 ≤ y.toInt ∧ y.toInt < 64 := by
  have hWord := toInt_eq_toNat_cond y
  have hLt := y.toUInt64.toNat_lt
  have hWidth : Limits.integerBits = 64 := rfl
  rw [withinWidth, decide_eq_true_iff, hWidth]
  split at hWord <;> omega

/-- Only the least amount is its own negative. -/
theorem toInt_neg_amount (hLeast : y ≠ Int64.minValue) : (-y).toInt = -y.toInt := by
  have hLow := y.le_toInt
  have hOther : y.toInt ≠ -2 ^ 63 := fun hSame => hLeast (Int64.toInt_inj.mp hSame)
  exact Checked.word?_eq_some_iff.mp (Checked.neg?_eq (by omega))

/-- The guard for a negative amount. The least amount is its own negative, and it is outside like
before. -/
theorem withinWidth_neg_iff (y : Int64) :
    withinWidth (-y) = true ↔ -64 < y.toInt ∧ y.toInt ≤ 0 := by
  rw [withinWidth_iff]
  by_cases hLeast : y = Int64.minValue
  · subst hLeast
    decide
  · rw [toInt_neg_amount hLeast]
    omega

/-! ### Words -/

/-- An amount that is not negative is the same number with and without a sign. -/
theorem toNat_amount (hAmount : y.toInt = k) : y.toUInt64.toNat = k := by
  have hWord := toNat_of_nonneg (a := y) (by omega)
  omega

/-- A shift to the left by an amount that is not negative, in natural numbers. -/
theorem toNat_shiftLeft_of_natCast (x : Int64) (hAmount : y.toInt = k) :
    (shiftLeft x y).toUInt64.toNat = x.toUInt64.toNat * 2 ^ k % 2 ^ 64 := by
  unfold shiftLeft
  by_cases hWidth : k < 64
  · rw [if_pos ((withinWidth_iff y).mpr (by omega)), UInt64.toUInt64_toInt64,
      UInt64.toNat_shiftLeft, toNat_amount hAmount, Nat.mod_eq_of_lt hWidth, Nat.shiftLeft_eq]
  · rw [if_neg (mt (withinWidth_iff y).mp (by omega)),
      if_neg (mt (withinWidth_neg_iff y).mp (by omega)), mul_past _ (Nat.not_lt.mp hWidth)]
    rfl

/-- A shift to the right by an amount that is not negative. Zeros come in from the left, whatever
the sign of the word was. -/
theorem toNat_shiftRight_of_natCast (x : Int64) (hAmount : y.toInt = k) :
    (shiftRight x y).toUInt64.toNat = x.toUInt64.toNat / 2 ^ k := by
  unfold shiftRight
  by_cases hWidth : k < 64
  · rw [if_pos ((withinWidth_iff y).mpr (by omega)), UInt64.toUInt64_toInt64,
      UInt64.toNat_shiftRight, toNat_amount hAmount, Nat.mod_eq_of_lt hWidth,
      Nat.shiftRight_eq_div_pow]
  · rw [if_neg (mt (withinWidth_iff y).mp (by omega)),
      if_neg (mt (withinWidth_neg_iff y).mp (by omega)),
      div_past x.toUInt64.toNat_lt (Nat.not_lt.mp hWidth)]
    rfl

/-- A shift is one the other way by the negative amount. The least amount, which is its own
negative, is past the width both ways. -/
theorem shiftLeft_neg (x y : Int64) : shiftLeft x (-y) = shiftRight x y := by
  unfold shiftLeft shiftRight
  rw [Int64.neg_neg]
  by_cases hForward : withinWidth y = true
  · by_cases hBackward : withinWidth (-y) = true
    · have hZero : y = 0 := by
        rw [withinWidth_iff] at hForward
        rw [withinWidth_neg_iff] at hBackward
        exact Int64.toInt_inj.mp (Int.le_antisymm hBackward.2 hForward.1)
      rw [if_pos hForward, if_pos hBackward, hZero]
      exact congrArg UInt64.toInt64 (UInt64.shiftLeft_zero.trans UInt64.shiftRight_zero.symm)
    · rw [if_neg hBackward, if_pos hForward, if_pos hForward]
  · rw [if_neg hForward, if_neg hForward]

/-- The least amount is past the width both ways. -/
theorem shift_least (x : Int64) :
    shiftLeft x Int64.minValue = 0 ∧ shiftRight x Int64.minValue = 0 := by
  have hForward : ¬withinWidth Int64.minValue = true := by decide
  have hBackward : ¬withinWidth (-Int64.minValue) = true := by decide
  exact ⟨(if_neg hForward).trans (if_neg hBackward), (if_neg hForward).trans (if_neg hBackward)⟩

/-! ### Amounts of either sign -/

/-- A shift to the left scales by the amount, of either sign. -/
theorem toNat_shiftLeft (x y : Int64) :
    ((shiftLeft x y).toUInt64.toNat : ℤ) = scaled x.toUInt64.toNat y.toInt := by
  have hWord := x.toUInt64.toNat_lt
  by_cases hLeast : y = Int64.minValue
  · rw [hLeast, (shift_least x).1, scaled_eq_zero hWord (by decide)]
    rfl
  obtain ⟨k, hAmount | hAmount⟩ := y.toInt.eq_nat_or_neg
  · rw [toNat_shiftLeft_of_natCast x hAmount, hAmount, scaled_natCast]
  · have hNeg : (-y).toInt = k := by rw [toInt_neg_amount hLeast, hAmount, Int.neg_neg]
    rw [hAmount, scaled_neg_natCast hWord, ← Int64.neg_neg (a := y), shiftLeft_neg,
      toNat_shiftRight_of_natCast x hNeg]

theorem toNat_shiftRight (x y : Int64) :
    ((shiftRight x y).toUInt64.toNat : ℤ) = scaled x.toUInt64.toNat (-y.toInt) := by
  by_cases hLeast : y = Int64.minValue
  · rw [hLeast, (shift_least x).2, scaled_eq_zero x.toUInt64.toNat_lt (by decide)]
    rfl
  · rw [← shiftLeft_neg, toNat_shiftLeft, toInt_neg_amount hLeast]

/-- Nothing is left of a word by an amount of its width or more. -/
theorem shift_past (x : Int64) (hWidth : 64 ≤ |y.toInt|) :
    shiftLeft x y = 0 ∧ shiftRight x y = 0 := by
  have hWord := x.toUInt64.toNat_lt
  have hLeft := toNat_shiftLeft x y
  have hRight := toNat_shiftRight x y
  rw [scaled_eq_zero hWord hWidth] at hLeft
  rw [scaled_eq_zero hWord (by rwa [abs_neg])] at hRight
  exact ⟨word_eq_of_toNat (by exact_mod_cast hLeft), word_eq_of_toNat (by exact_mod_cast hRight)⟩

/-! ### One shift after another -/

section Sum

variable {a b : Int64} {i j : ℕ}

/-- A sum of two amounts that are not negative is their sum as integers, as long as it fits. -/
theorem toInt_add_amounts (ha : a.toInt = i) (hb : b.toInt = j)
    (hSum : a.toInt + b.toInt < 2 ^ 63) : (a + b).toInt = (i + j : ℕ) := by
  rw [Checked.word?_eq_some_iff.mp (Checked.add?_eq (by omega) hSum), ha, hb, Nat.cast_add]

/-- Two shifts to the left are one by the sum of the amounts. The sum must not wrap, for then the
one shift would go the other way. -/
theorem shiftLeft_add (x : Int64) (ha : a.toInt = i) (hb : b.toInt = j)
    (hSum : a.toInt + b.toInt < 2 ^ 63) : shiftLeft x (a + b) = shiftLeft (shiftLeft x a) b := by
  apply word_eq_of_toNat
  rw [toNat_shiftLeft_of_natCast x (toInt_add_amounts ha hb hSum), toNat_shiftLeft_of_natCast _ hb,
    toNat_shiftLeft_of_natCast x ha, Nat.mod_mul_mod, pow_add, Nat.mul_assoc]

theorem shiftRight_add (x : Int64) (ha : a.toInt = i) (hb : b.toInt = j)
    (hSum : a.toInt + b.toInt < 2 ^ 63) :
    shiftRight x (a + b) = shiftRight (shiftRight x a) b := by
  apply word_eq_of_toNat
  rw [toNat_shiftRight_of_natCast x (toInt_add_amounts ha hb hSum),
    toNat_shiftRight_of_natCast _ hb, toNat_shiftRight_of_natCast x ha, Nat.div_div_eq_div_mul,
    pow_add]

end Sum

/-- By any amount, a shift to the left is the unsigned word times that power of two, and a shift to
the right is the word times its inverse: the floor of the product, modulo the words. So the one is
the other by the negative amount, nothing is left from the width on, and amounts that are not
negative add up where their sum is a word. -/
theorem shifts_exact (x y : Int64) :
    ((shiftLeft x y).toUInt64.toNat : ℤ) = scaled x.toUInt64.toNat y.toInt ∧
    ((shiftRight x y).toUInt64.toNat : ℤ) = scaled x.toUInt64.toNat (-y.toInt) ∧
    shiftLeft x y = shiftRight x (-y) ∧
    (shiftLeft x Int64.minValue = 0 ∧ shiftRight x Int64.minValue = 0) ∧
    (64 ≤ |y.toInt| → shiftLeft x y = 0 ∧ shiftRight x y = 0) ∧
    ∀ a b : Int64, 0 ≤ a.toInt → 0 ≤ b.toInt → a.toInt + b.toInt < 2 ^ 63 →
      shiftLeft x (a + b) = shiftLeft (shiftLeft x a) b ∧
      shiftRight x (a + b) = shiftRight (shiftRight x a) b := by
  refine ⟨toNat_shiftLeft x y, toNat_shiftRight x y, ?_, shift_least x, shift_past x,
    fun a b ha hb hSum => ?_⟩
  · rw [← shiftLeft_neg, Int64.neg_neg]
  · obtain ⟨i, hi⟩ := Int.eq_ofNat_of_zero_le ha
    obtain ⟨j, hj⟩ := Int.eq_ofNat_of_zero_le hb
    exact ⟨shiftLeft_add x hi hj hSum, shiftRight_add x hi hj hSum⟩

/-- The last bit that a shift leaves is lost by one more. -/
theorem shifts_exact_last : shiftLeft (-1) 63 = Int64.minValue ∧ shiftRight (-1) 63 = 1 ∧
    (shiftLeft (-1) (63 + 1) = shiftLeft (shiftLeft (-1) 63) 1 ∧
      shiftRight (-1) (63 + 1) = shiftRight (shiftRight (-1) 63) 1) ∧
    shiftLeft (-1) (-64) = 0 ∧ shiftRight (-1) (-64) = 0 := by
  have hExact := shifts_exact (-1) (-64)
  refine ⟨by decide, by decide, ?_, hExact.2.2.2.2.1 (by decide)⟩
  exact hExact.2.2.2.2.2 63 1 (by decide) (by decide) (by decide)

example : shiftLeft 1 (-1) = 0 ∧ shiftRight 1 (-3) = 8 ∧ shiftRight (-8) 60 = 15 := by
  decide

end TaggedRuntime.Number
