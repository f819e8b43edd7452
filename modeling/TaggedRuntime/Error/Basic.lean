import TaggedRuntime.Json.Basic

/-!
Runtime errors: what went wrong, and where in the program that was being run.

A cause has a code, a name and a text. A location without a line is no location: the error then
has no file, and its text does not start with one.
-/

namespace TaggedRuntime

/-- A place in the source of the running program; line zero stands for no place. -/
structure Location where
  file : String := ""
  line : UInt32 := 0
  deriving DecidableEq, Inhabited

/-- What went wrong. -/
inductive ErrorKind where
  | divideByZero
  | moduloByZero
  | zeroStep
  | numberToInteger
  | outOfMemory
  | invalidArrayIndex
  | arrayMetatable
  | tagCheck (expected received description : String)
  | arity (function : String) (expected received : UInt32)
  | stringLengthOverflow
  | charOutOfRange
  | tostringUnsupported (typeName : String)
  | tableOverflow
  deriving DecidableEq, Inhabited

namespace ErrorKind

def code : ErrorKind → UInt32
  | divideByZero => 41001
  | moduloByZero => 41002
  | zeroStep => 41003
  | numberToInteger => 41004
  | outOfMemory => 41005
  | invalidArrayIndex => 41006
  | arrayMetatable => 41007
  | tagCheck .. => 41008
  | arity .. => 41009
  | stringLengthOverflow => 41010
  | charOutOfRange => 41011
  | tostringUnsupported .. => 41012
  | tableOverflow => 41013

def name : ErrorKind → String
  | divideByZero => "divide_by_zero"
  | moduloByZero => "modulo_by_zero"
  | zeroStep => "zero_step"
  | numberToInteger => "number_to_integer"
  | outOfMemory => "out_of_memory"
  | invalidArrayIndex => "invalid_array_index"
  | arrayMetatable => "array_metatable"
  | tagCheck .. => "tag_check"
  | arity .. => "arity"
  | stringLengthOverflow => "string_length_overflow"
  | charOutOfRange => "char_out_of_range"
  | tostringUnsupported .. => "tostring_unsupported"
  | tableOverflow => "table_overflow"

/-- The program cannot go on after a fatal error. -/
def isFatal : ErrorKind → Bool
  | outOfMemory => true
  | _ => false

def message : ErrorKind → String
  | divideByZero => "attempt to divide by zero"
  | moduloByZero => "attempt to perform 'n%0'"
  | zeroStep => "'for' step is zero"
  | numberToInteger => "conversion from float does not fit into integer"
  | outOfMemory => "not enough memory"
  | invalidArrayIndex => "invalid index for array"
  | arrayMetatable => "arrays must not have a metatable"
  | tagCheck expected received description =>
    "wrong type for " ++ description ++ ", expected " ++ expected ++ " but found " ++ received
  | arity function expected received =>
    "wrong number of arguments to function '" ++ function ++ "', expected "
      ++ toString expected.toNat ++ " but received " ++ toString received.toNat
  | stringLengthOverflow => "string length overflow"
  | charOutOfRange => "char value out of range"
  | tostringUnsupported typeName => "tostring called with unsuported type '" ++ typeName ++ "'"
  | tableOverflow => "table overflow"

/-- The codes that a runtime error can have. -/
def codes : List UInt32 :=
  [41001, 41002, 41003, 41004, 41005, 41006, 41007, 41008, 41009, 41010, 41011, 41012, 41013]

/-- The code of a failure that is not the program's but the caller's. -/
def internalCode : UInt32 := 41099

end ErrorKind

/-- An error with its place, if that is known. -/
structure RuntimeError where
  kind : ErrorKind
  file : Option String
  line : UInt32
  deriving DecidableEq, Inhabited

namespace RuntimeError

/-- The error of a kind at a location. -/
def located (kind : ErrorKind) (loc : Location) : RuntimeError :=
  if 0 < loc.line then ⟨kind, some loc.file, loc.line⟩ else ⟨kind, none, 0⟩

def code (e : RuntimeError) : UInt32 := e.kind.code

def isFatal (e : RuntimeError) : Bool := e.kind.isFatal

/-- The text of the error, behind its place. -/
def message (e : RuntimeError) : String :=
  match e.file with
  | some file => "file " ++ file ++ ": line " ++ toString e.line.toNat ++ ": " ++ e.kind.message
  | none => e.kind.message

/-- The version of the layout of a report. -/
def schemaVersion : String := "tvrt.diag@0.1.0"

/-- A report of the error for a tool to read. -/
def report (e : RuntimeError) : Json :=
  .ofFields [
    ("schema_version", .str schemaVersion),
    ("code", .int e.code.toNat),
    ("kind", .str e.kind.name),
    ("message", .str e.kind.message),
    ("file", .optional .str e.file),
    ("line", if 0 < e.line then .int e.line.toNat else .null),
    ("fatal", .bool e.isFatal)]

end RuntimeError

end TaggedRuntime
