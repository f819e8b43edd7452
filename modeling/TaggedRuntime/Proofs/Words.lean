import Mathlib.Tactic.Ring
import TaggedRuntime.Limits

/-! Powers of two as sizes, words against the integers that they stand for, and arithmetic that is
checked: an operation on 64-bit integers has a result there only if its exact result is such an
integer, so what is computed in these operations neither wraps nor traps. -/

namespace TaggedRuntime

theorem twoPow_succ (n : Nat) : twoPow (n + 1) = 2 * twoPow n := Nat.pow_succ'

theorem twoPow_pos (n : Nat) : 0 < twoPow n := Nat.two_pow_pos n

theorem twoPow_add (m n : Nat) : twoPow (m + n) = twoPow m * twoPow n := Nat.pow_add 2 m n

theorem twoPow_le_twoPow {m n : Nat} (h : m ≤ n) : twoPow m ≤ twoPow n :=
  Nat.pow_le_pow_right (by decide) h

/-! ### Words as integers -/

/-- A word as an integer is the word as a natural number, less the number of words for the upper
half. This is the definition of two's complement, spelled out for arithmetic by `omega`. -/
theorem toInt_eq_toNat_cond (n : Int64) : n.toInt =
    if 2 * n.toUInt64.toNat < 2 ^ 64 then (n.toUInt64.toNat : Int)
    else n.toUInt64.toNat - (2 ^ 64 : Int) := by
  have h := BitVec.toInt_eq_toNat_cond n.toBitVec
  exact_mod_cast h

/-- A word is determined by its bits, so two words that are the same natural number are the same
integer. -/
theorem word_eq_of_toNat {a b : Int64} (h : a.toUInt64.toNat = b.toUInt64.toNat) : a = b := by
  rw [← Int64.toInt_inj, toInt_eq_toNat_cond, toInt_eq_toNat_cond, h]

/-- The distance between two words is the distance between their integers. -/
theorem toNat_distance {a b : Int64} (h : a.toInt ≤ b.toInt) :
    ((b.toUInt64 - a.toUInt64).toNat : Int) = b.toInt - a.toInt := by
  have ha := toInt_eq_toNat_cond a
  have hb := toInt_eq_toNat_cond b
  have haLt := a.toUInt64.toNat_lt
  have hbLt := b.toUInt64.toNat_lt
  rw [UInt64.toNat_sub]
  split at ha <;> split at hb <;> omega

/-- A word that is not negative is the same number with and without a sign. -/
theorem toNat_of_nonneg {a : Int64} (h : 0 ≤ a.toInt) : (a.toUInt64.toNat : Int) = a.toInt := by
  have ha := toInt_eq_toNat_cond a
  have hLt := a.toUInt64.toNat_lt
  split at ha <;> omega

theorem toNat_of_pos {a : Int64} (h : 0 < a.toInt) : (a.toUInt64.toNat : Int) = a.toInt :=
  toNat_of_nonneg h.le

/-- The word before a positive one, taken without a sign. A place in an array part is found in this
way from an index that counts from one. -/
theorem toNat_pred {a : Int64} (h : 1 ≤ a.toInt) : ((a.toUInt64 - 1).toNat : Int) = a.toInt - 1 :=
  toNat_distance (a := 1) h

/-- The unsigned word before one that is not positive is past all positive ones. -/
theorem le_toNat_pred {a : Int64} (h : a.toInt < 1) : 2 ^ 63 - 1 ≤ (a.toUInt64 - 1).toNat := by
  have hWord : (a.toUInt64 - 1).toNat = (a.toUInt64.toNat + (2 ^ 64 - 1)) % 2 ^ 64 := by
    rw [UInt64.toNat_sub, Nat.add_comm]
    rfl
  have hInt := toInt_eq_toNat_cond a
  have hLt := a.toUInt64.toNat_lt
  rw [hWord]
  split at hInt <;> omega

/-- The magnitude of a negative word, the least one included. One is added before the negation and
again behind it, so that no step is out of range. -/
theorem toNat_magnitude {a : Int64} (h : a.toInt < 0) :
    (((-(a + 1)).toUInt64 + 1).toNat : Int) = -a.toInt := by
  have hLow := a.le_toInt
  have hOne : (1 : Int64).toInt = 1 := rfl
  have hSucc : (a + 1).toInt = a.toInt + 1 := by
    rw [Int64.toInt_add, hOne]
    exact Int.bmod_eq_of_le (by omega) (by omega)
  have hNeg : (-(a + 1)).toInt = -a.toInt - 1 := by
    rw [Int64.toInt_neg, hSucc]
    rw [Int.bmod_eq_of_le] <;> omega
  have hWord := toInt_eq_toNat_cond (-(a + 1))
  have hLt := (-(a + 1)).toUInt64.toNat_lt
  have hUnit : (1 : UInt64).toNat = 1 := rfl
  rw [UInt64.toNat_add, hUnit]
  split at hWord <;> omega

/-! ### Checked arithmetic -/

namespace Checked

variable {a b : Int64} {n : Int}

/-- The word that an integer is, if it is one. -/
def word? (n : Int) : Option Int64 :=
  if -(2 ^ 63) ≤ n ∧ n < 2 ^ 63 then some (Int64.ofInt n) else none

def add? (a b : Int64) : Option Int64 := word? (a.toInt + b.toInt)

def sub? (a b : Int64) : Option Int64 := word? (a.toInt - b.toInt)

def neg? (a : Int64) : Option Int64 := word? (-a.toInt)

/-- The quotient, rounded towards zero. -/
def div? (a b : Int64) : Option Int64 :=
  if b = 0 then none else word? (a.toInt.tdiv b.toInt)

/-- What a quotient leaves. Where there is no quotient there is no remainder. -/
def rem? (a b : Int64) : Option Int64 := do
  let _ ← div? a b
  word? (a.toInt.tmod b.toInt)

/-- The size that a word is, if it is one. -/
def size? (a : Int64) : Option Nat := if 0 ≤ a.toInt then some a.toInt.toNat else none

/-- The checked constructor gives the word that stands for the integer, and no other. It gives none
exactly where there is no such word. -/
theorem word?_eq_some_iff : word? n = some a ↔ a.toInt = n := by
  unfold word?
  constructor
  · intro h
    obtain ⟨⟨hLow, hHigh⟩, hWord⟩ := Option.ite_none_right_eq_some.mp h
    rw [← Option.some.inj hWord, Int64.toInt_ofInt_of_le hLow hHigh]
  · rintro rfl
    rw [if_pos ⟨a.le_toInt, a.toInt_lt⟩, Int64.ofInt_toInt]

/-- A word that was computed modulo the number of words is the checked one where the exact result
fits. -/
theorem toInt_of_word {w : Int64} (hLow : -(2 ^ 63) ≤ n) (hHigh : n < 2 ^ 63)
    (hWord : w.toInt = n.bmod (2 ^ 64)) : word? n = some w := by
  rw [word?_eq_some_iff, hWord]
  exact Int.bmod_eq_of_le (by omega) (by omega)

/-- A sum that fits is the sum that wraps. This is the form in which a check that cannot fail is
dropped. -/
theorem add?_eq (hLow : -(2 ^ 63) ≤ a.toInt + b.toInt) (hHigh : a.toInt + b.toInt < 2 ^ 63) :
    add? a b = some (a + b) :=
  toInt_of_word hLow hHigh (Int64.toInt_add a b)

theorem sub?_eq (hLow : -(2 ^ 63) ≤ a.toInt - b.toInt) (hHigh : a.toInt - b.toInt < 2 ^ 63) :
    sub? a b = some (a - b) :=
  toInt_of_word hLow hHigh (Int64.toInt_sub a b)

/-- Every word but the least has a negative, and it is the one that wraps. -/
theorem neg?_eq (hLow : -(2 ^ 63) < a.toInt) : neg? a = some (-a) := by
  have hHigh := a.toInt_lt
  exact toInt_of_word (by omega) (by omega) (Int64.toInt_neg a)

/-- A quotient is checked for two divisors only: zero, and minus one, by which the least integer has
no quotient. -/
theorem div?_eq (hZero : b ≠ 0) (hMinusOne : b ≠ -1) : div? a b = some (a / b) := by
  rw [div?, if_neg hZero, word?_eq_some_iff]
  exact Int64.toInt_div_of_ne_right a b hMinusOne

/-- A remainder is checked for the same two divisors as a quotient, although no remainder is out of
range. -/
theorem rem?_eq (hZero : b ≠ 0) (hMinusOne : b ≠ -1) : rem? a b = some (a % b) := by
  rw [rem?, div?_eq hZero hMinusOne, Option.bind_eq_bind, Option.bind_some, word?_eq_some_iff]
  exact Int64.toInt_mod a b

theorem size?_eq (h : 0 ≤ a.toInt) : size? a = some a.toInt.toNat := if_pos h

end Checked

end TaggedRuntime
