import TaggedRuntime.Host.Basic

/-!
Values as they cross the boundary to native code: a tag, a length, a word, and the bytes that the
word points to if the value is a string.
-/

namespace TaggedRuntime

/-- A flat value. `data` is what lies behind the pointer of a string, nothing for a null pointer. -/
structure FlatValue where
  tag : UInt32
  length : UInt32 := 0
  bits : UInt64 := 0
  data : Bytes := []
  deriving DecidableEq, Inhabited

namespace FlatValue

def tagNil : UInt32 := 0

def tagAbsent : UInt32 := 1

def tagBool : UInt32 := 2

def tagInt : UInt32 := 3

def tagFloat : UInt32 := 4

def tagString : UInt32 := 5

def tagTable : UInt32 := 6

def tagUserdata : UInt32 := 7

/-- The flat form of a value. A string of more bytes than a length can say has none. -/
def ofValue? : Value → Option FlatValue
  | .nil => some { tag := tagNil }
  | .absent => some { tag := tagAbsent }
  | .bool b => some { tag := tagBool, bits := if b then 1 else 0 }
  | .int n => some { tag := tagInt, bits := n.toUInt64 }
  | .float x => some { tag := tagFloat, bits := x.bits }
  | .str s =>
    if s.length < twoPow 32 then
      some { tag := tagString, length := UInt32.ofNat s.length, data := s.bytes }
    else none
  | .table h => some { tag := tagTable, bits := h.index.toUInt64 }
  | .userdata h => some { tag := tagUserdata, bits := h.index.toUInt64 }

/-- The bytes of a string: as many as its length says, none behind a null pointer. -/
def text (v : FlatValue) : Bytes := v.data.take v.length.toNat

/-- The object that the word of a value names; only the lower half of the word counts. -/
def handle (v : FlatValue) : Handle := ⟨v.bits.toUInt32⟩

/-- The value of a flat form, its string made by the heap. An unknown tag has no value. -/
def toValue (v : FlatValue) : HostM Heap Value :=
  if v.tag = tagNil then return .nil
  else if v.tag = tagAbsent then return .absent
  else if v.tag = tagBool then return .bool (v.bits ≠ 0)
  else if v.tag = tagInt then return .int v.bits.toInt64
  else if v.tag = tagFloat then return .float ⟨v.bits⟩
  else if v.tag = tagString then return .str (← Heap.newStr v.text)
  else if v.tag = tagTable then return .table v.handle
  else if v.tag = tagUserdata then return .userdata v.handle
  else Heap.fault (.unknownTag v.tag)

end FlatValue

instance : TaggedValue FlatValue Handle where
  isFalse v := v.tag = FlatValue.tagBool && v.bits = 0
  isNil v := v.tag = FlatValue.tagNil || v.tag = FlatValue.tagAbsent
  isTrue v := v.tag = FlatValue.tagBool && v.bits ≠ 0
  ofBool b := { tag := FlatValue.tagBool, bits := if b then 1 else 0 }
  userdata? v := if v.tag = FlatValue.tagUserdata then some v.handle else none

end TaggedRuntime
