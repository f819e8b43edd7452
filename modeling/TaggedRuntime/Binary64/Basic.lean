import TaggedRuntime.Limits

/-!
Floating-point numbers of the binary64 interchange format, as words.

A word is a sign bit, eleven exponent bits and fifty-two fraction bits. Every finite number is
an integral multiple of the least positive one, `2 ^ -1074`; `Binary64.units` is that integer, and
`Binary64.ofUnits` goes back: it rounds a quotient of units once, to nearest, ties to even. All
arithmetic is defined through these two, so no operation rounds more than once.
-/

namespace TaggedRuntime

/-- A binary64 number, given by its word. Two numbers are equal as words, so a zero differs
from its negative and every NaN from every other payload. -/
structure Binary64 where
  bits : UInt64
  deriving DecidableEq, Inhabited

namespace Binary64

/-- Units in one: every finite number is a multiple of `2 ^ -1074`. -/
def one : Nat := twoPow 1074

/-- The word without its sign bit. -/
def magnitude (x : Binary64) : Nat := x.bits.toNat % twoPow 63

/-- The sign bit, which a zero and a NaN carry too. -/
def negative (x : Binary64) : Bool := twoPow 63 ≤ x.bits.toNat

/-- Magnitudes of infinity, and the least that no finite number has. -/
def infinite : Nat := 0x7ff * twoPow 52

def isNaN (x : Binary64) : Bool := infinite < x.magnitude

def isInfinite (x : Binary64) : Bool := x.magnitude = infinite

def isFinite (x : Binary64) : Bool := x.magnitude < infinite

def isZero (x : Binary64) : Bool := x.magnitude = 0

/-- Units in a magnitude: the fraction alone when the exponent field is zero, and otherwise the
fraction with its hidden bit, scaled by the exponent. Infinity counts as `2 ^ 1024`, which exceeds
every finite number. -/
def unitsOfMagnitude (m : Nat) : Nat :=
  if m / twoPow 52 = 0 then m
  else (twoPow 52 + m % twoPow 52) * twoPow (m / twoPow 52 - 1)

/-- The number in units of `2 ^ -1074`; for a NaN the value means nothing. -/
def units (x : Binary64) : Int :=
  if x.negative then -(unitsOfMagnitude x.magnitude : Int) else unitsOfMagnitude x.magnitude

/-- The number with a given sign and magnitude below `2 ^ 63`. -/
def ofMagnitude (negative : Bool) (m : Nat) : Binary64 :=
  ⟨UInt64.ofNat (if negative then twoPow 63 + m else m)⟩

def zero (negative : Bool) : Binary64 := ofMagnitude negative 0

def infinity (negative : Bool) : Binary64 := ofMagnitude negative infinite

/-- The NaN that an invalid operation gives. -/
def nan : Binary64 := ⟨0x7ff8000000000000⟩

/-- The same number with the other sign. -/
def neg (x : Binary64) : Binary64 := ofMagnitude (!x.negative) x.magnitude

instance : Neg Binary64 := ⟨neg⟩

/-- The quotient rounded to the nearest natural number, a half to the even neighbour. -/
def roundHalfEven (num den : Nat) : Nat :=
  let quotient := num / den
  let rest := num % den
  if 2 * rest < den ∨ (2 * rest = den ∧ quotient % 2 = 0) then quotient else quotient + 1

/-- Bits that a quotient of units has too many for a fifty-three bit significand. -/
def excess (num den : Nat) : Nat := (num / den).log2 - 52

/-- The magnitude nearest to a quotient of units. A significand that rounding carries to
`2 ^ 53` lands on the next exponent, since fields are adjacent; past the last exponent the
result is infinity. -/
def magnitudeOfUnits (num den : Nat) : Nat :=
  let shift := excess num den
  min infinite (shift * twoPow 52 + roundHalfEven num (den * twoPow shift))

/-- The number nearest to `num / den` units, with a given sign. -/
def ofUnits (negative : Bool) (num den : Nat) : Binary64 :=
  ofMagnitude negative (magnitudeOfUnits num den)

end Binary64

end TaggedRuntime
