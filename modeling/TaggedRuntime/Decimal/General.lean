import TaggedRuntime.Decimal.Digits

/-!
Text of a floating-point value to fourteen significant digits, the notation that `tostring`
gives: positional where the decimal exponent of the rounded value allows it, scientific elsewhere,
and never a text that could be read as an integer.
-/

namespace TaggedRuntime

namespace Decimal

/-- Significant digits of a printed float. -/
def precision : Nat := 14

/-- Digits with a point behind the first one. -/
def pointed (digits : Nat) : List Char :=
  match Nat.toDigits 10 digits with
  | [] => []
  | first :: [] => [first]
  | first :: rest => first :: '.' :: rest

/-- An exponent has a sign and at least two digits. -/
def exponentText (e : Int) : List Char :=
  'e' :: (if e < 0 then '-' else '+') :: padded 2 e.natAbs

/-- A positive quotient in the notation that its rounded exponent calls for. The positional form
rounds the exact value again, to the place of the last significant digit. -/
def generalMagnitude (num den : Nat) : List Char :=
  let rounded := roundSignificant precision num den
  let e := rounded.exponent
  if e < -4 ∨ (precision : Int) ≤ e then
    stripFraction (pointed rounded.digits) ++ exponentText e
  else
    let places := ((precision : Int) - 1 - e).toNat
    stripFraction (positional places (roundPlaces places num den))

/-- The sign bit is shown, also that of a zero or a NaN. -/
def general (x : Binary64) : List Char :=
  let magnitude :=
    if x.isNaN then ['n', 'a', 'n']
    else if x.isInfinite then ['i', 'n', 'f']
    else if x.isZero then ['0']
    else generalMagnitude x.units.natAbs Binary64.one
  if x.negative then '-' :: magnitude else magnitude

/-- A text of digits and minus signs only. -/
def looksIntegral (text : List Char) : Bool :=
  text.all fun c => c = '-' || ('0' ≤ c && c ≤ '9')

/-- A float's text carries a mark of its own wherever it would read as an integer. -/
def ofFloat (x : Binary64) : List Char :=
  let text := general x
  if looksIntegral text then text ++ ['.', '0'] else text

end Decimal

end TaggedRuntime
