import TaggedRuntime.Host.Basic
import TaggedRuntime.Run

/-!
Making tables and growing their array parts, over any host.

Sizes that the host could not hold are refused before it is asked, so what the host refuses is
only for want of memory.
-/

namespace TaggedRuntime

variable {σ Obj : Type} [HeapManager σ Obj]

/-- The largest hash part that a program may ask for. -/
def maxHashSize : Nat := twoPow Limits.hashBits

/-- A new table with room for so many array slots and other fields. Hints that are not positive ask
for nothing. -/
def createTable (arrayHint recordHint : Int64) (loc : Location) : Run σ Obj := do
  let arraySize := arrayHint.toInt.toNat
  let hashSize := recordHint.toInt.toNat
  if (← read).maxArraySize < arraySize || maxHashSize < hashSize then
    Run.raise .tableOverflow loc
  let table ← Run.host loc (HeapManager.newTable (σ := σ))
  if 0 < arraySize || 0 < hashSize then
    Run.host loc (HeapManager.resizeTable table arraySize hashSize)
  return table

/-- The least power of two that is not below `n`. -/
def nextPowerOfTwo (n : Nat) : Nat := twoPow (ceilLog2 n)

/-- Grows an array part so that the slot behind `position` others exists. -/
def growArray (array : Obj) (position : Nat) (loc : Location) : Run σ Unit := do
  if (← read).maxArraySize ≤ position then Run.raise .invalidArrayIndex loc
  let before ← Run.host loc (HeapManager.arrayLimit array)
  let after := nextPowerOfTwo (position + 1)
  Run.host loc (HeapManager.ensureCapacity array after)
  Run.emit (.arrayGrown before after loc)

/-- Makes the slot of index `i` exist, to run before a store to it. As an unsigned position an index
below one is past any array. -/
def ensureArraySlot (array : Obj) (i : Int64) (loc : Location) : Run σ Unit := do
  let position := (i.toUInt64 - 1).toNat
  if (← Run.host loc (HeapManager.arrayLimit array)) ≤ position then growArray array position loc

/-- An array has no metatable, which could change what its indices mean. -/
def checkArrayMetatable (array : Obj) (loc : Location) : Run σ Unit := do
  if ← Run.host loc (HeapManager.hasMetatable array) then Run.raise .arrayMetatable loc

end TaggedRuntime
