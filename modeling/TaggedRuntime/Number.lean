import TaggedRuntime.Binary64.Arithmetic
import TaggedRuntime.Error.Basic

/-! Arithmetic on 64-bit integers, and the passage from floating-point numbers to them.

Division and remainder round towards negative infinity, and the machine division towards zero. Where
the signs differ and the division is not exact the machine quotient is one too large and its
remainder one divisor too small. Divisors zero and minus one are settled first: the one has no
quotient, and the other one that may not fit, which wraps.

Shifts are logical, by any amount. A negative amount shifts the other way, and an amount of the full
width or more leaves nothing. A conversion that has no 64-bit result is refused. -/

namespace TaggedRuntime

namespace Number

/-- Whether two integers have different signs. -/
def signsDiffer (m n : Int64) : Bool := (m ^^^ n) < 0

def floorDiv (m n : Int64) : Except ErrorKind Int64 :=
  if n.toUInt64 + 1 ≤ 1 then
    if n = 0 then .error .divideByZero else .ok (-m)
  else
    let q := m / n
    .ok (if signsDiffer m n && m % n ≠ 0 then q - 1 else q)

def floorMod (m n : Int64) : Except ErrorKind Int64 :=
  if n.toUInt64 + 1 ≤ 1 then
    if n = 0 then .error .moduloByZero else .ok 0
  else
    let r := m % n
    .ok (if r ≠ 0 && signsDiffer m n then r + n else r)

/-- Whether a shift amount, read as unsigned, is less than the width. -/
def withinWidth (y : Int64) : Bool := y.toUInt64.toNat < Limits.integerBits

def shiftLeft (x y : Int64) : Int64 :=
  if withinWidth y then (x.toUInt64 <<< y.toUInt64).toInt64
  else if withinWidth (-y) then (x.toUInt64 >>> (-y).toUInt64).toInt64
  else 0

def shiftRight (x y : Int64) : Int64 :=
  if withinWidth y then (x.toUInt64 >>> y.toUInt64).toInt64
  else if withinWidth (-y) then (x.toUInt64 <<< (-y).toUInt64).toInt64
  else 0

/-- The integer that a number is. -/
def toInteger (x : Binary64) : Except ErrorKind Int64 :=
  match x.toInt64? with
  | some n => .ok n
  | none => .error .numberToInteger

def ceilToInteger (x : Binary64) : Except ErrorKind Int64 := toInteger x.ceil

def floorToInteger (x : Binary64) : Except ErrorKind Int64 := toInteger x.floor

/-- The integral part, rounded towards zero, and the fraction that is left of the number. -/
def splitParts (x : Binary64) : Except ErrorKind (Int64 × Binary64) := do
  let whole := if x.lt (.zero false) then x.ceil else x.floor
  let fraction := if x.eq whole then .zero false else x - whole
  return (← toInteger whole, fraction)

end Number

end TaggedRuntime
