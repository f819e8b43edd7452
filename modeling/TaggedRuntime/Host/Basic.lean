import TaggedRuntime.Heap.Basic

/-!
What the runtime asks of a host, and its checks on values and its write barrier over any host.

`TaggedValue` is what it must know of a value, `HeapManager` what it may do with objects, and
`TableLayout` what it sees of the hash part of a table. Operations on a heap may fail as
those of `HostM` do.
-/

namespace TaggedRuntime

/-- A representation of values in which objects of type `Obj` may occur. -/
class TaggedValue (V : Type) (Obj : outParam Type) where
  isFalse : V → Bool
  isNil : V → Bool
  isTrue : V → Bool
  ofBool : Bool → V
  userdata? : V → Option Obj

/-- A heap of state `σ` with objects of type `Obj`. -/
class HeapManager (σ : Type) (Obj : outParam Type) where
  isBlack : Obj → HostM σ Bool
  isWhite : Obj → HostM σ Bool
  /-- Tells the collector that a black owner is about to hold a white child. -/
  notifyReference : (owner child : Obj) → HostM σ Unit
  /-- The object that describes the type of a record. -/
  typeDescriptor? : Obj → HostM σ (Option Obj)
  newTable : HostM σ Obj
  resizeTable : Obj → (arraySize hashSize : Nat) → HostM σ Unit
  arrayLimit : Obj → HostM σ Nat
  hasMetatable : Obj → HostM σ Bool
  /-- Makes the array part of a table at least so long. -/
  ensureCapacity : Obj → (length : Nat) → HostM σ Unit

/-- A table of type `T` whose hash part is a sequence of linked buckets with cells of type `C`. -/
class TableLayout (T : Type) (K C : outParam Type) where
  /-- Short keys are told apart by identity and are the only ones whose buckets are remembered. -/
  isShortKey : K → Bool
  bucketCount : T → Nat
  homeBucket : T → K → Nat
  bucketHolds : T → Nat → K → Bool
  bucketNext? : T → Nat → Option Int
  bucketCell? : T → Nat → Option C
  setBucketCell : T → Nat → C → T
  absentCell : C
  lookupKey : T → K → C
  /-- Overwrites the cell that a key has, and gives what it held. -/
  overwriteKey? : T → K → C → Option (C × T)

instance : TaggedValue Value Handle where
  isFalse := Value.isFalse
  isNil := Value.isNil
  isTrue := Value.isTrue
  ofBool := Value.bool
  userdata? := Value.userdata?

instance : TableLayout Table Str Value where
  isShortKey := Str.isShort
  bucketCount := Table.bucketCount
  homeBucket := Table.homeBucket
  bucketHolds t n k := t.bucketShortStr? n = some k
  bucketNext? := Table.bucketNext?
  bucketCell? := Table.bucketValue?
  setBucketCell := Table.setBucketValue
  absentCell := .absent
  lookupKey := Table.getStr
  overwriteKey? := Table.overwriteStr?

/-- The array part of a table of a heap grows to a length, unless it is that long. -/
def Heap.ensureCapacity (r : Handle) (length : Nat) : HostM Heap Unit :=
  Heap.onTable r do
    if (← getThe Table).arrayLimit < length then Table.resizeArray length

instance : HeapManager Heap Handle where
  isBlack r := return (← Heap.color r) = .black
  isWhite r := return (← Heap.color r) = .white
  notifyReference owner _ := Heap.barrierBack owner
  typeDescriptor? r := return (← Heap.userdata? r).bind (·.metatable)
  newTable := Heap.alloc (.table {})
  resizeTable r arraySize hashSize := Heap.onTable r (Table.resize arraySize hashSize)
  arrayLimit r := return (← Heap.table r).arrayLimit
  hasMetatable r := return (← Heap.table r).metatable.isSome
  ensureCapacity := Heap.ensureCapacity

/-! ### Checks and the write barrier -/

/-- Only false and the nils are not true. -/
def isTruthy [TaggedValue V Obj] (v : V) : Bool := !TaggedValue.isFalse v && !TaggedValue.isNil v

/-- The truth value that a value holds; anything but a boolean holds false. -/
def boolValue [TaggedValue V Obj] (v : V) : Bool := TaggedValue.isTrue v

/-- Whether a value is a record of the expected type. -/
def isRecord [HeapManager σ Obj] [DecidableEq Obj] [TaggedValue V Obj] (v : V) (expected : Obj) :
    HostM σ Bool := do
  match TaggedValue.userdata? v with
  | some object => return (← HeapManager.typeDescriptor? object) = some expected
  | none => return false

/-- To run before an owner is given a child. The child is looked at only if the owner is black. -/
def writeBarrier [HeapManager σ Obj] (owner child : Obj) : HostM σ Unit := do
  if ← HeapManager.isBlack owner then
    if ← HeapManager.isWhite child then
      HeapManager.notifyReference owner child

end TaggedRuntime
