import TaggedRuntime.Binary64.Arithmetic

/-!
Logarithms by argument reduction and a polynomial.

The argument is scaled to `2 ^ k * (1 + f)` with `1 + f` near one, and `log (1 + f)` is a
polynomial in `s = f / (2 + f)`. The results are not correctly rounded: the order of the
operations below, each rounded on its own, is what fixes the last bit.
-/

namespace TaggedRuntime

namespace Binary64

namespace Logarithm

def lg1 : Binary64 := ⟨0x3fe5555555555593⟩

def lg2 : Binary64 := ⟨0x3fd999999997fa04⟩

def lg3 : Binary64 := ⟨0x3fd2492494229359⟩

def lg4 : Binary64 := ⟨0x3fcc71c51d8e78af⟩

def lg5 : Binary64 := ⟨0x3fc7466496cb03de⟩

def lg6 : Binary64 := ⟨0x3fc39a09d078c69f⟩

def lg7 : Binary64 := ⟨0x3fc2f112df3e5244⟩

/-- The upper half of a word. -/
def high (x : Binary64) : UInt32 := (x.bits >>> 32).toUInt32

/-- An argument reduced to `2 ^ k * (1 + f)`. -/
structure Reduced where
  k : Binary64
  f : Binary64
  deriving DecidableEq

/-- Halves of the square of `f`, and the quotient that the polynomial is taken of. -/
structure Terms where
  halfSquare : Binary64
  quotient : Binary64
  polynomial : Binary64
  deriving DecidableEq

/-- Either the argument has a logarithm at hand, or it is reduced: a zero has negative infinity,
a negative number a NaN, an infinity and a NaN themselves, and one has zero. An argument below the
normal range is scaled by `2 ^ 54` first. -/
def reduce (x : Binary64) : Except Binary64 Reduced :=
  if x.isZero then .error (infinity true)
  else if x.negative then .error nan
  else if !x.isFinite then .error x
  else if x.bits = 0x3ff0000000000000 then .error (zero false)
  else
    let subnormal := high x < 0x00100000
    let scaled := if subnormal then x * ⟨0x4350000000000000⟩ else x
    let shifted := high scaled + (0x3ff00000 - 0x3fe6a09e)
    let k : Int := (if subnormal then -54 else 0) + ((shifted >>> 20).toNat : Int) - 0x3ff
    let top := (shifted &&& 0xfffff) + 0x3fe6a09e
    let reduced : Binary64 := ⟨(top.toUInt64 <<< 32) ||| (scaled.bits &&& 0xffffffff)⟩
    .ok ⟨ofInt k, reduced - ⟨0x3ff0000000000000⟩⟩

def terms (f : Binary64) : Terms :=
  let halfSquare := ⟨0x3fe0000000000000⟩ * f * f
  let s := f / (⟨0x4000000000000000⟩ + f)
  let z := s * s
  let w := z * z
  let even := w * (lg2 + w * (lg4 + w * lg6))
  let odd := z * (lg1 + w * (lg3 + w * (lg5 + w * lg7)))
  ⟨halfSquare, s, odd + even⟩

/-- The number with the lower half of its word cleared. -/
def clearLow (x : Binary64) : Binary64 := ⟨x.bits &&& 0xffffffff00000000⟩

/-- `log (1 + f)` as a sum of two numbers, the first of which has a short significand. -/
def split (f : Binary64) (t : Terms) : Binary64 × Binary64 :=
  let upper := clearLow (f - t.halfSquare)
  (upper, f - upper - t.halfSquare + t.quotient * (t.halfSquare + t.polynomial))

end Logarithm

open Logarithm

/-- The natural logarithm. -/
def log (x : Binary64) : Binary64 :=
  match reduce x with
  | .error y => y
  | .ok ⟨k, f⟩ =>
    let t := terms f
    t.quotient * (t.halfSquare + t.polynomial) + k * ⟨0x3dea39ef35793c76⟩ - t.halfSquare + f
      + k * ⟨0x3fe62e42fee00000⟩

/-- The logarithm to base two. -/
def log2 (x : Binary64) : Binary64 :=
  match reduce x with
  | .error y => y
  | .ok ⟨k, f⟩ =>
    let (upper, lower) := split f (terms f)
    let head := upper * ⟨0x3ff7154765200000⟩
    let tail := (lower + upper) * ⟨0x3de705fc2eefa200⟩ + lower * ⟨0x3ff7154765200000⟩
    let w := k + head
    tail + ((k - w) + head) + w

/-- The logarithm to base ten. -/
def log10 (x : Binary64) : Binary64 :=
  match reduce x with
  | .error y => y
  | .ok ⟨k, f⟩ =>
    let (upper, lower) := split f (terms f)
    let head := upper * ⟨0x3fdbcb7b15200000⟩
    let whole := k * ⟨0x3fd34413509f6000⟩
    let tail := k * ⟨0x3d59fef311f12b36⟩ + (lower + upper) * ⟨0x3dbb9438ca9aadd5⟩
      + lower * ⟨0x3fdbcb7b15200000⟩
    let w := whole + head
    tail + ((whole - w) + head) + w

/-- The logarithm to any base: bases ten and two have their own expansion, and any other is a
quotient of natural logarithms. -/
def logBase (x base : Binary64) : Binary64 :=
  if base.eq ⟨0x4024000000000000⟩ then x.log10
  else if base.eq ⟨0x4000000000000000⟩ then x.log2
  else x.log / base.log

end Binary64

end TaggedRuntime
