import TaggedRuntime.Decimal.General
import TaggedRuntime.Run

/-! Comparison of byte strings, string operations on a heap, and the errors that speak of values.

Byte strings may contain zero bytes. They are compared piece by piece, a piece ending before the
next zero byte; where two pieces are equal the string that is used up first is the lesser. -/

namespace TaggedRuntime

namespace Bytes

/-- The bytes before the first zero. -/
def segment (bytes : Bytes) : Bytes := bytes.takeWhile (· ≠ 0)

/-- Comparison by unsigned bytes, a start of a string being less than the string. -/
def compareLex : Bytes → Bytes → Ordering
  | [], [] => .eq
  | [], _ :: _ => .lt
  | _ :: _, [] => .gt
  | a :: as, b :: bs => if a < b then .lt else if b < a then .gt else compareLex as bs

/-- Compares the first pieces, and what follows the zero behind equal ones. Each round uses up a
byte, so the length of the first string bounds the rounds. -/
def compareSegments : (fuel : Nat) → Bytes → Bytes → Ordering
  | 0, _, _ => .eq
  | fuel + 1, a, b =>
    match compareLex a.segment b.segment with
    | .eq =>
      let n := a.segment.length
      match a.drop n, b.drop n with
      | [], [] => .eq
      | _ :: _, [] => .gt
      | [], _ :: _ => .lt
      | _ :: a, _ :: b => compareSegments fuel a b
    | order => order

def compare (a b : Bytes) : Ordering := compareSegments (a.length + 1) a b

end Bytes

/-! ### Operations -/

namespace Strings

/-- The longest string that can be addressed. -/
def maxLength : Nat := twoPow 63 - 1

/-- A string of the heap, made on behalf of a location. -/
def make (loc : Location) (bytes : Bytes) : Run Heap Str := Run.host loc (Heap.newStr bytes)

/-- The parts in a row. -/
def concat (parts : List Str) (loc : Location) : Run Heap Str := do
  let bytes := parts.flatMap (·.bytes)
  if maxLength < bytes.length then Run.raise .stringLengthOverflow loc
  make loc bytes

/-- The string of one byte. -/
def char (code : Int64) (loc : Location) : Run Heap Str := do
  if 0 ≤ code && code ≤ 255 then make loc [code.toInt.toNat.toUInt8]
  else Run.raise .charOutOfRange loc

/-- The first position of a part. A negative position counts from the end, and one before the
string is its first. -/
def startPosition (pos : Int64) (length : Nat) : Nat :=
  if 0 < pos then pos.toInt.toNat
  else if pos = 0 || pos.toInt < -length then 1
  else (length + pos.toInt + 1).toNat

/-- The last position of a part. A negative position counts from the end, and one behind the string
is its last. -/
def endPosition (pos : Int64) (length : Nat) : Nat :=
  if (length : Int) < pos.toInt then length
  else if 0 ≤ pos then pos.toInt.toNat
  else if pos.toInt < -length then 0
  else (length + pos.toInt + 1).toNat

/-- The bytes at the positions from one to another, counted from one. -/
def slice (bytes : Bytes) (i j : Int64) : Bytes :=
  let first := startPosition i bytes.length
  let last := endPosition j bytes.length
  if last < first then [] else (bytes.drop (first - 1)).take (last - (first - 1))

/-- The part of a string between two positions. -/
def sub (s : Str) (i j : Int64) : Run Heap Str := make {} (slice s.bytes i j)

/-- Text whose characters are all of one byte. -/
def asciiBytes (text : List Char) : Bytes := text.map fun c => c.toNat.toUInt8

/-- The text of a number, a boolean or a string; a string is its own. -/
def tostring (v : Value) (loc : Location) : Run Heap Str := do
  match v with
  | .int n => make loc (asciiBytes (Decimal.ofInt n.toInt))
  | .float x => make loc (asciiBytes (Decimal.ofFloat x))
  | .str s => return s
  | .bool true => make loc (asciiBytes ['t', 'r', 'u', 'e'])
  | .bool false => make loc (asciiBytes ['f', 'a', 'l', 's', 'e'])
  | v => Run.raise (.tostringUnsupported v.typeName) loc

/-- Writes the bytes of a string to the output of the process. -/
def write (s : Str) : Run σ Unit := Run.write s.bytes

/-- The error of a value that does not have the type a program expects. -/
def tagCheckError (loc : Location) (expected : String) (received : Value) (description : String) :
    Run σ RuntimeError :=
  Run.error (.tagCheck expected received.tagName description) loc

/-- The error of a call with a wrong number of arguments. -/
def arityError (loc : Location) (function : String) (expected received : UInt32) :
    Run σ RuntimeError :=
  Run.error (.arity function expected received) loc

end Strings

end TaggedRuntime
