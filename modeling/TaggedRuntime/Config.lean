import TaggedRuntime.Limits
import TaggedRuntime.Text

/-!
Settings of a process, read from named variables. A variable that is not set, or whose text is
not in the variable's grammar, leaves its setting at the default.
-/

namespace TaggedRuntime

structure Config where
  maxArrayBits : Nat := Limits.arrayBits
  inlineCache : Bool := true
  trace : Bool := false
  deriving DecidableEq, Inhabited

namespace Config

/-- Truth values have five spellings each, and no blanks around them. -/
def readBool (text : String) : Option Bool :=
  if ["1", "true", "TRUE", "yes", "YES"].contains text then some true
  else if ["0", "false", "FALSE", "no", "NO"].contains text then some false
  else none

/-- A natural number in ASCII digits, at least one, that fits 32 bits. -/
def readDigits (digits : List Char) : Option Nat :=
  if digits.isEmpty || !digits.all Char.isDigit then none
  else
    let n := digits.foldl (fun n c => n * 10 + (c.toNat - '0'.toNat)) 0
    if n < twoPow 32 then some n else none

/-- A positive number of 32 bits, with blanks around it and a plus sign in front of it allowed. -/
def readPositive (text : String) : Option Nat :=
  let digits :=
    match Text.trim text.toList with
    | '+' :: rest => rest
    | rest => rest
  (readDigits digits).filter (0 < ·)

/-- The settings under a look-up of variables. An array bound past what a table can hold counts
as that. -/
def ofLookup (lookup : String → Option String) : Config where
  maxArrayBits :=
    min (((lookup "TVRT_MAX_ARRAY_BITS").bind readPositive).getD Limits.arrayBits) Limits.arrayBits
  inlineCache := ((lookup "TVRT_INLINE_CACHE").bind readBool).getD true
  trace := ((lookup "TVRT_TRACE").bind readBool).getD false

/-- The largest array part that a program may ask for. -/
def maxArraySize (c : Config) : Nat := twoPow c.maxArrayBits

end Config

end TaggedRuntime
