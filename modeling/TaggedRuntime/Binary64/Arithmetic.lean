import TaggedRuntime.Binary64.Basic

/-!
Arithmetic and order on binary64 numbers. Each operation is the exact result rounded once;
the special cases are those of the format: infinities absorb, an invalid operation is a NaN, and a
comparison with a NaN is false. Floor, ceiling and the passage to 64-bit integers round nothing.
-/

namespace TaggedRuntime

namespace Binary64

/-- The sum of two finite numbers is exact in units. An exact zero is negative only when both
terms are. -/
def add (x y : Binary64) : Binary64 :=
  if x.isNaN || y.isNaN then nan
  else if x.isInfinite then
    if y.isInfinite && x.negative != y.negative then nan else x
  else if y.isInfinite then y
  else
    let sum := x.units + y.units
    if sum = 0 then zero (x.negative && y.negative) else ofUnits (sum < 0) sum.natAbs 1

def sub (x y : Binary64) : Binary64 :=
  if x.isNaN || y.isNaN then nan else add x (-y)

/-- A product of two multiples of a unit is a multiple of its square. -/
def mul (x y : Binary64) : Binary64 :=
  let negative := x.negative != y.negative
  if x.isNaN || y.isNaN then nan
  else if x.isInfinite || y.isInfinite then
    if x.isZero || y.isZero then nan else infinity negative
  else ofUnits negative (x.units.natAbs * y.units.natAbs) one

def div (x y : Binary64) : Binary64 :=
  let negative := x.negative != y.negative
  if x.isNaN || y.isNaN then nan
  else if x.isInfinite then
    if y.isInfinite then nan else infinity negative
  else if y.isInfinite then zero negative
  else if y.isZero then
    if x.isZero then nan else infinity negative
  else ofUnits negative (x.units.natAbs * one) y.units.natAbs

instance : Add Binary64 := ⟨add⟩

instance : Sub Binary64 := ⟨sub⟩

instance : Mul Binary64 := ⟨mul⟩

instance : Div Binary64 := ⟨div⟩

/-- Equality of numbers: both zeros are equal, and a NaN equals nothing. -/
def eq (x y : Binary64) : Bool := !x.isNaN && !y.isNaN && x.units = y.units

def lt (x y : Binary64) : Bool := !x.isNaN && !y.isNaN && x.units < y.units

def le (x y : Binary64) : Bool := !x.isNaN && !y.isNaN && x.units ≤ y.units

/-- The number nearest to an integer. -/
def ofInt (n : Int) : Binary64 := ofUnits (n < 0) (n.natAbs * one) 1

/-! ### Integral parts -/

/-- The number that stands for an integral part, keeping the sign of `x` on a zero. An integral
part has no more significant bits than the number itself, so this rounds nothing. -/
def ofIntegralPart (x : Binary64) (n : Int) : Binary64 :=
  if n = 0 then zero x.negative else ofInt n

/-- The greatest integral number that is not above `x`; infinities and NaNs are their own. -/
def floor (x : Binary64) : Binary64 :=
  if x.isFinite then ofIntegralPart x (x.units.fdiv one) else x

/-- The least integral number that is not below `x`. -/
def ceil (x : Binary64) : Binary64 :=
  if x.isFinite then ofIntegralPart x (-((-x.units).fdiv one)) else x

/-- The number without its fraction, as an integer. -/
def truncate (x : Binary64) : Int := x.units.tdiv one

/-- `2 ^ 63`, the first number above the 64-bit integers. -/
def twoPow63 : Binary64 := ⟨0x43e0000000000000⟩

/-- The 64-bit integer that equals `x`, if there is one. -/
def toInt64? (x : Binary64) : Option Int64 :=
  if x.floor.eq x && (-twoPow63).le x && x.lt twoPow63 then some (Int64.ofInt x.truncate)
  else none

end Binary64

end TaggedRuntime
