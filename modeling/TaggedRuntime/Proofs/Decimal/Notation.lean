import TaggedRuntime.Decimal.General
import TaggedRuntime.Proofs.Decimal.Rounding

/-! Decimal notation. What is printed for a quotient is read back digit by digit:
the whole part, the fraction without zeros at its end, and the exponent. -/

namespace TaggedRuntime.Decimal

/-- The number that the digits behind a point stand for. -/
def fraction (digits : List Char) : ℚ := Nat.ofDigitChars 10 digits 0 / 10 ^ digits.length

/-- A number in positional notation. A point is written only in front of digits, and the last of
these is not zero. -/
inductive WrittenOut (q : ℚ) : List Char → Prop where
  | whole (n : ℕ) (hValue : q = n) : WrittenOut q (Nat.toDigits 10 n)
  | pointed (n : ℕ) (digits : List Char) (last : Char)
      (hDigits : ∀ c ∈ digits ++ [last], c.isDigit = true) (hLast : last ≠ '0')
      (hValue : q = n + fraction (digits ++ [last])) :
      WrittenOut q (Nat.toDigits 10 n ++ '.' :: (digits ++ [last]))

/-- An exponent in at least two digits. -/
def exponentDigits (n : ℕ) : List Char :=
  if n < 10 then '0' :: Nat.toDigits 10 n else Nat.toDigits 10 n

/-- A positive number in the notation that its value, rounded to fourteen significant digits, calls
for: positional if the exponent of the rounded value is from -4 to 13, and scientific
otherwise. -/
inductive General (v : ℚ) : List Char → Prop where
  | positional {digits : ℕ} {exponent : ℤ} {text : List Char}
      (hRounded : Significant 14 v digits exponent) (hLow : -4 ≤ exponent) (hHigh : exponent ≤ 13)
      (hText : WrittenOut (digits * (10 : ℚ) ^ (exponent - 13)) text) : General v text
  | scientific {digits : ℕ} {exponent : ℤ} {mantissa : List Char}
      (hRounded : Significant 14 v digits exponent) (hOutside : exponent < -4 ∨ 13 < exponent)
      (hMantissa : WrittenOut (digits / 10 ^ 13) mantissa) :
      General v (mantissa ++ 'e' :: (if exponent < 0 then '-' else '+') ::
        exponentDigits exponent.natAbs)

/-! ### Zeros at the end of a fraction -/

theorem fraction_append_zeros (digits : List Char) (k : ℕ) :
    fraction (digits ++ List.replicate k '0') = fraction digits := by
  unfold fraction
  rw [Nat.ofDigitChars_append, Nat.ofDigitChars_replicate_zero, List.length_append,
    List.length_replicate, Nat.cast_mul, Nat.cast_pow, Nat.cast_ofNat, pow_add]
  field_simp

/-- A text of characters is all zeros, or it has a last character that is none and then zeros. The
split is what the scan from the end finds. -/
theorem trailing_zeros (digits : List Char) :
    (∃ k, digits = List.replicate k '0') ∨
    ∃ front last k, last ≠ '0' ∧ digits = front ++ [last] ++ List.replicate k '0' := by
  induction digits with
  | nil => exact .inl ⟨0, rfl⟩
  | cons c rest ih =>
      rcases ih with ⟨k, rfl⟩ | ⟨front, last, k, hLast, rfl⟩
      · by_cases hZero : c = '0'
        · exact .inl ⟨k + 1, by rw [hZero, List.replicate_succ]⟩
        · exact .inr ⟨[], c, k, hZero, rfl⟩
      · exact .inr ⟨c :: front, last, k, hLast, rfl⟩

/-- Zeros are taken off the end up to another character, and a point behind them too. There has to
be a point in the text, for zeros of an integer are not taken off. -/
theorem stripFraction_run (text : List Char) (c : Char) (hc : c ≠ '0') (k : ℕ)
    (hPoint : '.' ∈ text ++ [c]) :
    stripFraction (text ++ [c] ++ List.replicate k '0') =
      if c = '.' then (text.reverse.dropWhile (· = '.')).reverse else text ++ [c] := by
  have hContains : (text ++ [c] ++ List.replicate k '0').contains '.' = true :=
    List.contains_iff_mem.mpr (List.mem_append_left _ hPoint)
  have hZeros : ∀ d ∈ List.replicate k '0', decide (d = '0') = true :=
    fun d hd => decide_eq_true (List.eq_of_mem_replicate hd)
  unfold stripFraction
  rw [if_pos hContains, List.reverse_append, List.reverse_append, List.reverse_replicate,
    List.dropWhile_append_of_pos hZeros, List.reverse_singleton, List.singleton_append,
    List.dropWhile_cons_of_neg (by simpa using hc)]
  split
  next hDot => rw [List.dropWhile_cons_of_pos (by simpa using hDot)]
  next hDot => rw [List.dropWhile_cons_of_neg (by simpa using hDot), List.reverse_cons,
    List.reverse_reverse]

theorem not_dot_of_isDigit {c : Char} (hDigit : c.isDigit = true) : c ≠ '.' := by
  rintro rfl
  cases hDigit

theorem dropWhile_dot {text : List Char} (hDigits : ∀ c ∈ text, c.isDigit = true) :
    text.dropWhile (· = '.') = text := by
  cases text with
  | nil => rfl
  | cons c rest =>
      have hc := not_dot_of_isDigit (hDigits c (List.mem_cons_self ..))
      rw [List.dropWhile_cons_of_neg (by simpa using hc)]

theorem isDigit_toDigits (n : ℕ) {c : Char} (hc : c ∈ Nat.toDigits 10 n) : c.isDigit = true :=
  Nat.isDigit_of_mem_toDigits (by decide) (by decide) hc

/-- A number with digits behind its point is written out when zeros are taken off. Where all of the
digits are zeros the point goes as well, and the integer is left. -/
theorem writtenOut_stripFraction (n : ℕ) {digits : List Char}
    (hDigits : ∀ c ∈ digits, c.isDigit = true) :
    WrittenOut (n + fraction digits) (stripFraction (Nat.toDigits 10 n ++ '.' :: digits)) := by
  rcases trailing_zeros digits with ⟨k, rfl⟩ | ⟨front, last, k, hLast, rfl⟩
  · have hText : stripFraction (Nat.toDigits 10 n ++ '.' :: List.replicate k '0') =
        Nat.toDigits 10 n := by
      have hRun := stripFraction_run (Nat.toDigits 10 n) '.' (by decide) k (by simp)
      rw [if_pos rfl, dropWhile_dot fun c hc => isDigit_toDigits n (List.mem_reverse.mp hc),
        List.reverse_reverse, List.append_assoc, List.singleton_append] at hRun
      exact hRun
    rw [hText]
    refine .whole n ?_
    have hZero := fraction_append_zeros [] k
    rw [List.nil_append] at hZero
    rw [hZero]
    simp [fraction]
  · have hKept : ∀ c ∈ front ++ [last], c.isDigit = true :=
      fun c hc => hDigits c (List.mem_append_left _ hc)
    have hDot : last ≠ '.' := not_dot_of_isDigit (hKept last (by simp))
    have hRun := stripFraction_run (Nat.toDigits 10 n ++ '.' :: front) last hLast k (by simp)
    rw [if_neg hDot] at hRun
    have hText : stripFraction (Nat.toDigits 10 n ++ '.' :: (front ++ [last] ++
        List.replicate k '0')) = Nat.toDigits 10 n ++ '.' :: (front ++ [last]) := by
      simpa using hRun
    rw [hText]
    refine .pointed n front last hKept hLast ?_
    rw [fraction_append_zeros]

/-! ### Digits behind the point -/

/-- A number that is padded to a width has digits only, and behind a point it is that number over
the power of ten of the width. -/
theorem padded_digits {k n : ℕ} (hk : 0 < k) (hn : n < 10 ^ k) :
    (∀ c ∈ padded k n, c.isDigit = true) ∧ fraction (padded k n) = n / 10 ^ k := by
  have hLength : (Nat.toDigits 10 n).length ≤ k :=
    (Nat.length_toDigits_le_iff (by decide) hk).mpr hn
  unfold padded
  refine ⟨fun c hc => ?_, ?_⟩
  · rcases List.mem_append.mp hc with hZero | hDigit
    · rw [List.eq_of_mem_replicate hZero]
      rfl
    · exact isDigit_toDigits n hDigit
  · unfold fraction
    dsimp only
    rw [Nat.ofDigitChars_append, Nat.ofDigitChars_replicate_zero, Nat.mul_zero,
      Nat.ofDigitChars_ten_toDigits, List.length_append, List.length_replicate,
      Nat.sub_add_cancel hLength]

/-- Positional notation writes a number out, at every number of places. With none there is no point
either. -/
theorem writtenOut_positional (places n : ℕ) :
    WrittenOut ((n : ℚ) / 10 ^ places) (stripFraction (positional places n)) := by
  unfold positional
  split
  next hNone =>
    have hText : stripFraction (Nat.toDigits 10 n) = Nat.toDigits 10 n := by
      unfold stripFraction
      refine if_neg fun hDot => ?_
      exact not_dot_of_isDigit (isDigit_toDigits n (List.contains_iff_mem.mp hDot)) rfl
    rw [hText, hNone]
    exact .whole n (by simp)
  next hSome =>
    have hPower : tenPow places = 10 ^ places := rfl
    have hRest : n % tenPow places < 10 ^ places := Nat.mod_lt n (Nat.pow_pos (by decide))
    obtain ⟨hDigits, hValue⟩ := padded_digits (Nat.pos_of_ne_zero hSome) hRest
    have hSplit : (n : ℚ) / 10 ^ places =
        (n / tenPow places : ℕ) + fraction (padded places (n % tenPow places)) := by
      have hNat : (10 ^ places * (n / tenPow places : ℕ) + (n % tenPow places : ℕ) : ℚ) = n := by
        exact_mod_cast Nat.div_add_mod n (tenPow places)
      rw [hValue, ← hNat]
      field_simp
    rw [hSplit]
    exact writtenOut_stripFraction _ hDigits

/-! ### Mantissa and exponent -/

/-- A digit writes its own number. -/
theorem toDigits_of_isDigit {c : Char} (hDigit : c.isDigit = true) :
    Nat.toDigits 10 (c.toNat - '0'.toNat) = [c] := by
  obtain ⟨hLow, hHigh⟩ := Char.isDigit_iff_toNat.mp hDigit
  have hLess : c.toNat - '0'.toNat < 10 := by
    simp only [Char.reduceToNat] at hLow hHigh ⊢
    omega
  rw [Nat.toDigits_of_lt_base hLess]
  congr 1
  apply Char.toNat_inj.mp
  rw [Nat.toNat_digitChar_of_lt_ten hLess]
  simp only [Char.reduceToNat] at hLow ⊢
  omega

/-- A point behind the first of `c + 1` digits divides by the power of ten of the others. There have
to be digits behind the first, and the first must not be zero. -/
theorem writtenOut_pointed {c digits : ℕ} (hc : 0 < c) (hLow : 10 ^ c ≤ digits)
    (hHigh : digits < 10 ^ (c + 1)) :
    WrittenOut ((digits : ℚ) / 10 ^ c) (stripFraction (pointed digits)) := by
  have hSome : digits ≠ 0 := Nat.ne_of_gt (Nat.lt_of_lt_of_le (Nat.pow_pos (by decide)) hLow)
  have hLength : (Nat.toDigits 10 digits).length = c + 1 := by
    have hLess := (digitCount_le_iff digits (c + 1)).mpr hHigh
    have hMore := (lt_digitCount_iff digits c).mpr hLow
    rw [digitCount, if_neg hSome] at hLess hMore
    omega
  obtain ⟨first, rest, hDigits⟩ := List.exists_cons_of_length_eq_add_one hLength
  rw [hDigits, List.length_cons, Nat.add_right_cancel_iff] at hLength
  have hAll : ∀ d ∈ first :: rest, d.isDigit = true :=
    fun d hd => isDigit_toDigits digits (hDigits ▸ hd)
  have hFirst := toDigits_of_isDigit (hAll first (List.mem_cons_self ..))
  have hText : pointed digits =
      Nat.toDigits 10 (first.toNat - '0'.toNat) ++ '.' :: rest := by
    rw [hFirst, pointed, hDigits]
    cases rest with
    | nil =>
        rw [List.length_nil] at hLength
        omega
    | cons second rest => rfl
  have hValue : (digits : ℚ) / 10 ^ c = (first.toNat - '0'.toNat : ℕ) + fraction rest := by
    have hNat : 10 ^ c * (first.toNat - '0'.toNat) + Nat.ofDigitChars 10 rest 0 = digits := by
      have hRead : Nat.ofDigitChars 10 (first :: rest) 0 = digits := by
        rw [← hDigits, Nat.ofDigitChars_ten_toDigits]
      rw [← hRead, Nat.ofDigitChars_cons, Nat.mul_zero, Nat.zero_add, ← hLength]
      exact (@Nat.ofDigitChars_eq_ofDigitChars_zero rest (first.toNat - '0'.toNat)).symm
    rw [fraction, hLength, ← hNat]
    push_cast
    field_simp
  rw [hText, hValue]
  exact writtenOut_stripFraction _ fun d hd => hAll d (List.mem_cons_of_mem _ hd)

/-- An exponent has two digits at least. Longer ones are printed as they are. -/
theorem padded_two (n : ℕ) : padded 2 n = exponentDigits n := by
  unfold padded exponentDigits
  dsimp only
  split
  next hLess => rw [Nat.toDigits_of_lt_base hLess, List.length_singleton, List.replicate_one,
    List.singleton_append]
  next hMore =>
    have hLength : ¬(Nat.toDigits 10 n).length ≤ 1 := fun hOne =>
      hMore ((Nat.length_toDigits_le_iff (by decide) Nat.one_pos).mp hOne)
    have hNone : 2 - (Nat.toDigits 10 n).length = 0 := by omega
    rw [hNone, List.replicate_zero, List.nil_append]

/-- The rounding that the exponent is read from and the one that the digits are taken from agree,
so what is printed is the rounded value. -/
theorem general_generalMagnitude {num den : ℕ} (hNum : 0 < num) (hDen : 0 < den) :
    General ((num : ℚ) / den) (generalMagnitude num den) := by
  have hRounded : Significant 14 ((num : ℚ) / den) (roundSignificant precision num den).digits
      (roundSignificant precision num den).exponent := significant_roundSignificant 13 hNum hDen
  unfold generalMagnitude
  dsimp only
  split
  next hOutside =>
    unfold exponentText
    rw [padded_two]
    refine .scientific hRounded (hOutside.imp_right fun hMost => ?_)
      (writtenOut_pointed (by decide) hRounded.low hRounded.high)
    exact Int.lt_of_add_one_le hMost
  next hInside =>
    obtain ⟨hLow, hHigh⟩ := not_or.mp hInside
    have hAtMost : (roundSignificant precision num den).exponent ≤ 13 :=
      Int.lt_add_one_iff.mp (Int.not_le.mp hHigh)
    obtain ⟨places, hPlaces⟩ : ∃ places : ℕ,
        (13 : ℤ) - (roundSignificant precision num den).exponent = places :=
      Int.eq_ofNat_of_zero_le (by omega)
    have hToNat : ((precision : ℤ) - 1 - (roundSignificant precision num den).exponent).toNat =
        places := by
      change ((13 : ℤ) - _).toNat = places
      rw [hPlaces, Int.toNat_natCast]
    have hAgree : roundPlaces places num den = (roundSignificant precision num den).digits :=
      roundPlaces_eq (c := 13) hNum hDen hPlaces.symm
    have hUnit : (10 : ℚ) ^ ((roundSignificant precision num den).exponent - 13) =
        (10 ^ places)⁻¹ := by
      rw [← zpow_natCast, ← zpow_neg, ← hPlaces, neg_sub]
    refine .positional hRounded (Int.not_lt.mp hLow) hAtMost ?_
    rw [hToNat, hAgree]
    have hWritten := writtenOut_positional places (roundSignificant precision num den).digits
    rwa [div_eq_mul_inv, ← hUnit] at hWritten

end TaggedRuntime.Decimal
