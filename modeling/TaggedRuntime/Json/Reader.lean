import TaggedRuntime.Binary64.Arithmetic
import TaggedRuntime.Json.Basic

/-!
Reading JSON text.

Integers that fit 64 bits, signed or unsigned, are read as they are. Any other number is a
floating-point number, read from the digits that fit an unsigned 64-bit word and one power of ten,
with a rounding at each of the two steps. Of two fields with one key the later one counts.
-/

namespace TaggedRuntime

namespace Json

namespace Reader

/-- The characters behind any blanks. -/
def skip (text : List Char) : List Char :=
  text.dropWhile fun c => c = ' ' || c = '\n' || c = '\r' || c = '\t'

def digitValue (c : Char) : Nat := c.toNat - '0'.toNat

def hexValue? (c : Char) : Option Nat :=
  if '0' ≤ c && c ≤ '9' then some (c.toNat - '0'.toNat)
  else if 'a' ≤ c && c ≤ 'f' then some (c.toNat - 'a'.toNat + 10)
  else if 'A' ≤ c && c ≤ 'F' then some (c.toNat - 'A'.toNat + 10)
  else none

/-- Four hexadecimal digits. -/
def codeUnit? (a b c d : Char) : Option Nat := do
  return (((← hexValue? a) * 16 + (← hexValue? b)) * 16 + (← hexValue? c)) * 16 + (← hexValue? d)

/-- The character of an escape of one letter. -/
def named? : Char → Option Char
  | '"' => some '"'
  | '\\' => some '\\'
  | '/' => some '/'
  | 'b' => some '\x08'
  | 'f' => some '\x0c'
  | 'n' => some '\n'
  | 'r' => some '\r'
  | 't' => some '\t'
  | _ => none

/-- The characters up to the closing quote, and the text behind it. A character outside the
basic plane is escaped as a pair of surrogates; half of a pair is refused. -/
def quoted : List Char → Option (List Char × List Char)
  | [] => none
  | '"' :: rest => some ([], rest)
  | '\\' :: 'u' :: a :: b :: c :: d :: rest => do
    let unit ← codeUnit? a b c d
    if 0xd800 ≤ unit && unit < 0xdc00 then
      match rest with
      | '\\' :: 'u' :: e :: f :: g :: h :: rest => do
        let low ← codeUnit? e f g h
        if 0xdc00 ≤ low && low < 0xe000 then
          let (chars, rest) ← quoted rest
          return (Char.ofNat (0x10000 + (unit - 0xd800) * 0x400 + (low - 0xdc00)) :: chars, rest)
        else none
      | _ => none
    else if 0xdc00 ≤ unit && unit < 0xe000 then none
    else
      let (chars, rest) ← quoted rest
      return (Char.ofNat unit :: chars, rest)
  | '\\' :: letter :: rest => do
    let c ← named? letter
    let (chars, rest) ← quoted rest
    return (c :: chars, rest)
  | c :: rest =>
    if c.toNat < 0x20 then none
    else do
      let (chars, rest) ← quoted rest
      return (c :: chars, rest)

/-- Digits appended to a significand for as long as it fits 64 bits, and the number of digits
that were. -/
def accumulate : (significand : Nat) → List Char → Nat × Nat
  | significand, [] => (significand, 0)
  | significand, c :: rest =>
    let next := significand * 10 + digitValue c
    if next < twoPow 64 then
      let (last, taken) := accumulate next rest
      (last, taken + 1)
    else (significand, 0)

/-- The power of ten nearest to `10 ^ n`. -/
def powerOfTen (n : Nat) : Binary64 := .ofInt (tenPow n)

/-- A number times a power of ten. Powers past the range of the format are taken in steps of
`10 ^ 308`; a result above the range is refused. -/
def scale : (fuel : Nat) → Binary64 → Int → Option Binary64
  | 0, x, _ => some x
  | fuel + 1, x, power =>
    if power.natAbs ≤ 308 then
      let y := if 0 ≤ power then x * powerOfTen power.natAbs else x / powerOfTen power.natAbs
      if y.isInfinite then none else some y
    else if x.isZero then some x
    else if 0 ≤ power then none
    else scale fuel (x / powerOfTen 308) (power + 308)

/-- Parts of a number: sign, digits before the point, digits behind it, and exponent. The last
two may be missing. -/
structure NumberParts where
  negative : Bool
  whole : List Char
  fraction : Option (List Char)
  exponent : Option Int
  deriving DecidableEq

/-- The value of a number. Two divisions by `10 ^ 308` bring any significand of 64 bits to zero, so
four steps are enough. -/
def NumberParts.value (p : NumberParts) : Option Json :=
  let (significand, taken) := accumulate 0 p.whole
  let dropped := p.whole.length - taken
  if p.fraction.isNone && p.exponent.isNone && dropped = 0
      && (!p.negative || (0 < significand && significand ≤ twoPow 63)) then
    some (.int (if p.negative then -significand else significand))
  else
    let (significand, taken) := accumulate significand (p.fraction.getD [])
    let power : Int := dropped - taken + p.exponent.getD 0
    (scale 4 (.ofInt significand) power).map fun x => .float (if p.negative then -x else x)

def digits (text : List Char) : List Char × List Char := text.span Char.isDigit

/-- The digits behind a point, at least one. -/
def fraction : List Char → Option (Option (List Char) × List Char)
  | '.' :: rest =>
    match digits rest with
    | ([], _) => none
    | (places, rest) => some (some places, rest)
  | text => some (none, text)

/-- The exponent of a number, with its sign. -/
def exponent : List Char → Option (Option Int × List Char)
  | c :: rest =>
    if c = 'e' || c = 'E' then
      let (negative, rest) :=
        match rest with
        | '+' :: rest => (false, rest)
        | '-' :: rest => (true, rest)
        | rest => (false, rest)
      match digits rest with
      | ([], _) => none
      | (places, rest) =>
        let n : Int := places.foldl (fun n c => n * 10 + digitValue c) 0
        some (some (if negative then -n else n), rest)
    else some (none, c :: rest)
  | [] => some (none, [])

/-- A number. Only a lone zero starts with the digit zero. -/
def number (text : List Char) : Option (Json × List Char) := do
  let (negative, text) :=
    match text with
    | '-' :: rest => (true, rest)
    | text => (false, text)
  let (whole, text) := digits text
  if whole.isEmpty || (whole.head? = some '0' && whole.length ≠ 1) then none
  let (fraction, text) ← fraction text
  let (exponent, text) ← exponent text
  let value ← NumberParts.value ⟨negative, whole, fraction, exponent⟩
  return (value, text)

mutual

/-- A value and the text behind it. -/
def value : (fuel : Nat) → List Char → Option (Json × List Char)
  | 0, _ => none
  | fuel + 1, text =>
    match skip text with
    | 'n' :: 'u' :: 'l' :: 'l' :: rest => some (.null, rest)
    | 't' :: 'r' :: 'u' :: 'e' :: rest => some (.bool true, rest)
    | 'f' :: 'a' :: 'l' :: 's' :: 'e' :: rest => some (.bool false, rest)
    | '"' :: rest => (quoted rest).map fun (chars, rest) => (.str (String.ofList chars), rest)
    | '[' :: rest =>
      match skip rest with
      | ']' :: rest => some (.array [], rest)
      | rest => (items fuel rest).map fun (items, rest) => (.array items, rest)
    | '{' :: rest =>
      match skip rest with
      | '}' :: rest => some (.object [], rest)
      | rest => (members fuel [] rest).map fun (fields, rest) => (.object fields, rest)
    | text => number text

/-- One item or more, up to the closing bracket. -/
def items : (fuel : Nat) → List Char → Option (List Json × List Char)
  | 0, _ => none
  | fuel + 1, text => do
    let (item, text) ← value fuel text
    match skip text with
    | ']' :: rest => return ([item], rest)
    | ',' :: rest =>
      let (more, rest) ← items fuel rest
      return (item :: more, rest)
    | _ => none

/-- One field or more, up to the closing brace, on top of the fields before them. -/
def members : (fuel : Nat) → List (String × Json) → List Char →
    Option (List (String × Json) × List Char)
  | 0, _, _ => none
  | fuel + 1, fields, text =>
    match skip text with
    | '"' :: text => do
      let (key, text) ← quoted text
      match skip text with
      | ':' :: text =>
        let (item, text) ← value fuel text
        let fields := insertField (String.ofList key) item fields
        match skip text with
        | '}' :: rest => return (fields, rest)
        | ',' :: rest => members fuel fields rest
        | _ => none
      | _ => none
    | _ => none

end

end Reader

/-- The value that a text is, with nothing but blanks around it. No value nests or continues more
often than it has characters, so the fuel is never used up. -/
def read? (text : List Char) : Option Json :=
  match Reader.value (text.length + 1) text with
  | some (value, rest) => if (Reader.skip rest).isEmpty then some value else none
  | none => none

end Json

end TaggedRuntime
