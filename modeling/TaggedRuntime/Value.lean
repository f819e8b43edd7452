import TaggedRuntime.Binary64.Arithmetic
import TaggedRuntime.Limits
import TaggedRuntime.Text

/-!
Values of the dynamically typed host: a tag with a payload. Objects are named by handles into
a heap.

A string has contents and an identity: the heap that made it and the serial number it was made
under. A heap makes at most one short string of the same contents, so short strings are told apart
by identity; long strings are compared by contents.
-/

namespace TaggedRuntime

/-- The hash of a byte sequence, mixed from the last byte to the first. -/
def Bytes.hash (bytes : Bytes) : UInt32 :=
  bytes.foldr (fun b h => h ^^^ ((h <<< 5) + (h >>> 2) + b.toUInt32))
    (0x2f5c9a1d ^^^ bytes.length.toUInt32)

/-- A string made by a heap. Two strings are the same string when they are equal here. -/
structure Str where
  serial : Nat
  home : Nat
  bytes : Bytes
  deriving DecidableEq, Inhabited

namespace Str

def length (s : Str) : Nat := s.bytes.length

def isShort (s : Str) : Bool := s.length ≤ Limits.shortLength

def hash (s : Str) : UInt32 := Bytes.hash s.bytes

/-- Equality of values: the same string, or equal contents where one of the two is long. Short
strings of equal contents from different heaps are different values. -/
def equal (a b : Str) : Bool :=
  a = b || (!(a.isShort && b.isShort) && a.hash = b.hash && a.bytes = b.bytes)

end Str

/-! ### Values -/

/-- The name of an object within its heap. -/
structure Handle where
  index : UInt32
  deriving DecidableEq, Inhabited

/-- A value. `absent` is the nil that a table answers for a key it does not hold. -/
inductive Value where
  | nil
  | absent
  | bool (b : Bool)
  | int (n : Int64)
  | float (x : Binary64)
  | str (s : Str)
  | table (object : Handle)
  | userdata (object : Handle)
  deriving DecidableEq

instance : Inhabited Value := ⟨.nil⟩

/-- Tags that a type test can tell apart. -/
inductive TypeTag where
  | nil
  | boolean
  | integer
  | float
  | string
  | table
  | userdata
  deriving DecidableEq, Inhabited

/-- Both number tags have one type name. -/
def TypeTag.typeName : TypeTag → String
  | .nil => "nil"
  | .boolean => "boolean"
  | .integer => "number"
  | .float => "number"
  | .string => "string"
  | .table => "table"
  | .userdata => "userdata"

namespace Value

def tag : Value → TypeTag
  | .nil => .nil
  | .absent => .nil
  | .bool _ => .boolean
  | .int _ => .integer
  | .float _ => .float
  | .str _ => .string
  | .table _ => .table
  | .userdata _ => .userdata

/-- The name of a value's type. -/
def typeName (v : Value) : String := v.tag.typeName

/-- The name that tells integers from floats. -/
def tagName : Value → String
  | .int _ => "integer"
  | .float _ => "float"
  | v => v.typeName

def isNil : Value → Bool
  | .nil => true
  | .absent => true
  | _ => false

def isAbsent : Value → Bool
  | .absent => true
  | _ => false

def isFalse : Value → Bool
  | .bool b => !b
  | _ => false

def isTrue : Value → Bool
  | .bool b => b
  | _ => false

/-- The object that a value keeps alive. -/
def object? : Value → Option Handle
  | .table h => some h
  | .userdata h => some h
  | _ => none

def userdata? : Value → Option Handle
  | .userdata h => some h
  | _ => none

/-- An integer equals a float when the float is that integer exactly; going through the nearest
float alone would equate integers beyond `2 ^ 53` with their neighbours. -/
def intEqFloat (n : Int64) (x : Binary64) : Bool :=
  (Binary64.ofInt n.toInt).eq x && x.toInt64? = some n

/-- Equality without metamethods. Both nils are equal, and numbers are compared by value. -/
def rawEq : Value → Value → Bool
  | .bool a, .bool b => a = b
  | .int a, .int b => a = b
  | .float a, .float b => a.eq b
  | .int n, .float x => intEqFloat n x
  | .float x, .int n => intEqFloat n x
  | .str a, .str b => a.equal b
  | .table a, .table b => a = b
  | .userdata a, .userdata b => a = b
  | a, b => a.isNil && b.isNil

end Value

end TaggedRuntime
