import TaggedRuntime.Value

/-!
Table keys: what a value is looked up as.

Numbers of equal value are one key, so a float that is a 64-bit integer becomes that integer.
Nil and NaN are no keys. A bucket that was never filled holds the vacant key, which is the same as
no key, itself included.
-/

namespace TaggedRuntime

/-- Why a table refuses a store. -/
inductive StoreError where
  | nilKey
  | nanKey
  | outOfMemory
  /-- A rebuild asked for another one beyond what its caller allowed. -/
  | unsettled
  deriving DecidableEq

def StoreError.message : StoreError → String
  | .nilKey => "table index is nil"
  | .nanKey => "table index is NaN"
  | .outOfMemory => "not enough memory"
  | .unsettled => "table does not settle"

/-- The key of a bucket or of an access. -/
inductive Key where
  | vacant
  | bool (b : Bool)
  | int (n : Int64)
  | float (x : Binary64)
  | str (s : Str)
  | object (h : Handle)
  deriving DecidableEq

instance : Inhabited Key := ⟨.vacant⟩

namespace Key

/-- The key that a value is looked up as. A float that is no integer is looked up by its word. -/
def ofValue : Value → Except StoreError Key
  | .nil => .error .nilKey
  | .absent => .error .nilKey
  | .bool b => .ok (.bool b)
  | .int n => .ok (.int n)
  | .float x =>
    if x.isNaN then .error .nanKey
    else
      match x.toInt64? with
      | some n => .ok (.int n)
      | none => .ok (.float x)
  | .str s => .ok (.str s)
  | .table h => .ok (.object h)
  | .userdata h => .ok (.object h)

def isVacant : Key → Bool
  | .vacant => true
  | _ => false

/-- The short string that a key is. -/
def shortStr? : Key → Option Str
  | .str s => if s.isShort then some s else none
  | _ => none

/-- Whether an access under one key reaches the bucket of another. -/
def same : Key → Key → Bool
  | .bool a, .bool b => a = b
  | .int a, .int b => a = b
  | .float a, .float b => a = b
  | .str a, .str b => a.equal b
  | .object a, .object b => a = b
  | _, _ => false

/-- A word reduced to a bucket: modulo an odd number next to the bucket count, which is a power
of two. -/
def reduce (word : UInt64) (buckets : Nat) : Nat := word.toNat % ((buckets - 1) ||| 1)

/-- The bucket where the search for a key starts, among a power of two of them. Booleans and
strings take the low bits of their hash. -/
def mainPosition (k : Key) (buckets : Nat) : Nat :=
  match k with
  | .vacant => 0
  | .bool b => b.toNat &&& (buckets - 1)
  | .int n => reduce n.toUInt64 buckets
  | .float x => reduce (x.bits ^^^ (x.bits >>> 32)) buckets
  | .str s => s.hash.toNat &&& (buckets - 1)
  | .object h => reduce h.index.toUInt64 buckets

/-- The index of an array slot that a key could take. -/
def arrayCandidate? : Key → Option Nat
  | .int n => if 1 ≤ n.toInt ∧ n.toInt ≤ twoPow Limits.arrayBits then some n.toInt.toNat else none
  | _ => none

end Key

end TaggedRuntime
