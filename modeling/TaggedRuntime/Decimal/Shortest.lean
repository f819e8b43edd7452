import TaggedRuntime.Decimal.Digits

/-!
The fewest decimal digits that read back as the same number, as numbers are written in JSON.

A decimal reads back as `x` when it lies between the two midpoints towards the neighbours of
`x`; a midpoint itself counts when the fraction of `x` is even. The grids `10 ^ e`,
`10 ^ (e - 1)`, ... are tried in turn: the first with a point in that interval wins, of two such
points the nearer, and of two equally near ones the even.
-/

namespace TaggedRuntime

namespace Decimal

/-- What reads back as one positive number, in half units: the number itself, the midpoints on
both sides, and whether they belong to it. -/
structure Interval where
  center : Nat
  low : Nat
  high : Nat
  closed : Bool
  deriving DecidableEq

/-- The interval of a positive finite magnitude. -/
def Interval.ofMagnitude (m : Nat) : Interval :=
  let units := Binary64.unitsOfMagnitude m
  ⟨2 * units, Binary64.unitsOfMagnitude (m - 1) + units, units + Binary64.unitsOfMagnitude (m + 1),
    m % 2 = 0⟩

/-- Whether `num / den` half units lie in the interval. -/
def Interval.holds (i : Interval) (num den : Nat) : Bool :=
  if i.closed then i.low * den ≤ num && num ≤ i.high * den
  else i.low * den < num && num < i.high * den

/-- The point of the grid `10 ^ power` that reads back as the number, if one does. -/
def Interval.point? (i : Interval) (power : Int) : Option Nat :=
  let (num, den) := scaleDown i.center (2 * Binary64.one) power
  let below := num / den
  let scale (d : Nat) : Nat × Nat := scaleDown (d * (2 * Binary64.one)) 1 (-power)
  let holds (d : Nat) : Bool := i.holds (scale d).1 (scale d).2
  let nearest := Binary64.roundHalfEven num den
  if holds nearest then some nearest
  else if holds below then some below
  else if holds (below + 1) then some (below + 1)
  else none

/-- The digits on the first grid that holds a point. Seventeen digits always do, so the last
grid is never passed. -/
def Interval.search (i : Interval) : (grids : Nat) → (power : Int) → Nat × Int
  | 0, power => (0, power)
  | grids + 1, power =>
    match i.point? power with
    | some digits => (digits, power)
    | none => i.search grids (power - 1)

/-- Digits without zeros at the end, and the power of ten of the last one left. -/
def dropZeros : (fuel : Nat) → Nat → Int → Nat × Int
  | 0, digits, power => (digits, power)
  | fuel + 1, digits, power =>
    if digits % 10 = 0 then dropZeros fuel (digits / 10) (power + 1) else (digits, power)

/-- The shortest digits of a positive finite number, and the power of ten of the last. -/
def shortestDigits (x : Binary64) : Nat × Int :=
  let i := Interval.ofMagnitude x.magnitude
  let (digits, power) := i.search 18 (exponent x.units.natAbs Binary64.one)
  dropZeros 18 digits power

/-- Decimal exponents from `-5` to `15` are written positionally, with at least one digit behind
the point; others in scientific notation with a signed exponent. -/
def shortestMagnitude (x : Binary64) : List Char :=
  let (digits, power) := shortestDigits x
  let text := Nat.toDigits 10 digits
  let e := power + text.length - 1
  if e < -5 ∨ 15 < e then
    pointedShort text ++ 'e' :: (if e < 0 then '-' else '+') :: Nat.toDigits 10 e.natAbs
  else if 0 ≤ power then text ++ List.replicate power.toNat '0' ++ ['.', '0']
  else positional power.natAbs digits
where
  pointedShort : List Char → List Char
    | [] => []
    | first :: [] => [first]
    | first :: rest => first :: '.' :: rest

/-- A finite number in the fewest digits; zero keeps its sign. -/
def shortest (x : Binary64) : List Char :=
  let magnitude := if x.isZero then ['0', '.', '0'] else shortestMagnitude x
  if x.negative then '-' :: magnitude else magnitude

end Decimal

end TaggedRuntime
