/-!
Limits that generated code and the runtime agree on, and powers of the two bases that sizes and
digits are counted in.
-/

namespace TaggedRuntime

def twoPow (n : Nat) : Nat := Nat.pow 2 n

def tenPow (n : Nat) : Nat := Nat.pow 10 n

namespace Limits

/-- Strings up to this length are interned and compared by identity. -/
def shortLength : Nat := 40

/-- Width of an integer value. -/
def integerBits : Nat := 64

/-- An array part holds at most `2 ^ arrayBits` slots. -/
def arrayBits : Nat := 31

/-- A hash part holds at most `2 ^ hashBits` buckets. -/
def hashBits : Nat := 30

/-- Objects of one heap are told apart by 32-bit handles, and so are its registered keys. -/
def handles : Nat := twoPow 32

end Limits

end TaggedRuntime
