import TaggedRuntime.Binary64.Basic

/-!
Decimal digits of exact quotients.

A positive quotient `num / den` has a decimal exponent, the power of ten of its first digit.
`roundSignificant` keeps a number of digits counted from the first, `roundPlaces` a number of digits
counted from the point; both round the exact value to nearest, ties to even.
-/

namespace TaggedRuntime

namespace Decimal

open Binary64 (roundHalfEven)

/-- How many decimal digits a number has; zero has none. -/
def digitCount (n : Nat) : Nat := if n = 0 then 0 else (Nat.toDigits 10 n).length

/-- The exponent `e` with `10 ^ e ≤ num / den < 10 ^ (e + 1)`. Below one it is read off the
reciprocal, rounded up. -/
def exponent (num den : Nat) : Int :=
  if den ≤ num then (digitCount (num / den) : Int) - 1
  else -(digitCount ((den - 1) / num) : Int)

/-- The quotient divided by a power of ten, as a quotient. -/
def scaleDown (num den : Nat) (power : Int) : Nat × Nat :=
  (num * tenPow (-power).toNat, den * tenPow power.toNat)

/-- A whole number of decimal digits with the power of ten of the first one. -/
structure Scientific where
  digits : Nat
  exponent : Int
  deriving DecidableEq

/-- The quotient to `count` significant digits. A carry out of the first digit moves the
exponent. -/
def roundSignificant (count num den : Nat) : Scientific :=
  let e := exponent num den
  let (scaledNum, scaledDen) := scaleDown num den (e + 1 - count)
  let digits := roundHalfEven scaledNum scaledDen
  if digits = tenPow count then ⟨tenPow (count - 1), e + 1⟩ else ⟨digits, e⟩

/-- The quotient to `places` digits after the point, as a number of units of the last place. -/
def roundPlaces (places num den : Nat) : Nat := roundHalfEven (num * tenPow places) den

/-- Digits of `n`, with zeros in front up to a width. -/
def padded (width n : Nat) : List Char :=
  let digits := Nat.toDigits 10 n
  List.replicate (width - digits.length) '0' ++ digits

/-- A number of units of the last of `places` places, written with a point. -/
def positional (places n : Nat) : List Char :=
  if places = 0 then Nat.toDigits 10 n
  else Nat.toDigits 10 (n / tenPow places) ++ '.' :: padded places (n % tenPow places)

/-- The digits with the zeros at the end of a fraction removed, and the point with them when no
digit is left behind it. -/
def stripFraction (text : List Char) : List Char :=
  if text.contains '.' then
    ((text.reverse.dropWhile (· = '0')).dropWhile (· = '.')).reverse
  else text

/-- An integer in decimal. -/
def ofInt (n : Int) : List Char :=
  if n < 0 then '-' :: Nat.toDigits 10 n.natAbs else Nat.toDigits 10 n.natAbs

end Decimal

end TaggedRuntime
