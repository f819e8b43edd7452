import TaggedRuntime.Abi.World
import TaggedRuntime.Field
import TaggedRuntime.Host.Growth
import TaggedRuntime.Host.Basic
import TaggedRuntime.Loop
import TaggedRuntime.Number

/-!
The entry points of native code.
-/

namespace TaggedRuntime

namespace Abi

/-- A calculation, refused with its error at a site. -/
def calculate (site : Site) (x : Except ErrorKind α) : Native (Tagged α) :=
  settle (Run.ofExcept site.location x)

/-- Sets a colour, given by its number, and tells whether it did. -/
def setColor (heap : HeapRef) (object : Handle) (color : UInt32) : Native Bool := do
  let color? : Option Color :=
    if color = 0 then some .white
    else if color = 1 then some .gray
    else if color = 2 then some .black
    else none
  match color? with
  | none => return false
  | some color =>
    match onHeap heap (Run.host {} (Heap.setColor object color)) (← read) (← getThe (Journal World)) with
    | .ok _ j =>
      set j
      return true
    | .error _ _ => return false

/-- Whether a value is a record of the expected type; no fault is reported. -/
def isRecord (heap : HeapRef) (v : FlatValue) (expected : Handle) : Native Bool := do
  let j ← getThe (Journal World)
  match heap.bind fun i => j.host.heaps[i]? with
  | none => return false
  | some h =>
    match TaggedRuntime.isRecord v expected h with
    | .ok answer _ => return answer
    | .error _ _ => return false

/-- To run before an owner is given a child. -/
def barrier (heap : HeapRef) (owner child : Handle) : Native (Tagged Unit) :=
  settle (onHeap heap (Run.host {} (writeBarrier owner child)))

/-- Registers the name of a field. -/
def intern (heap : HeapRef) (name : Bytes) : Native (Tagged UInt32) :=
  settle (onHeap heap (Run.host {} (Heap.registerKey name)))

def createTable (heap : HeapRef) (arrayHint recordHint : Int64) (site : Site) :
    Native (Tagged Handle) :=
  settle (onHeap heap (TaggedRuntime.createTable (σ := Heap) arrayHint recordHint site.location))

def ensureArraySlot (heap : HeapRef) (array : Handle) (i : Int64) (site : Site) :
    Native (Tagged Unit) :=
  settle (onHeap heap (TaggedRuntime.ensureArraySlot array i site.location))

/-- The string that a registered key is. -/
def registeredKey (id : UInt32) : Run Heap Str := do
  match (← getThe (Journal Heap)).host.key? id with
  | some s => return s
  | none => throw (.fault (.unknownKey id))

/-- The cell of a field, and the cache behind the look-up. -/
def readField (table : Handle) (key : UInt32) (cache : FieldCache) :
    Run Heap (Value × FieldCache) := do
  let key ← registeredKey key
  let t ← Run.host {} (Heap.table table)
  Run.ofFault (getField (← read) t key cache)

/-- Stores a field: into its cell if it has one, and as a new key otherwise. The key is looked up
first, then the value is made, and the barrier is run before the table is looked at. -/
def writeField (table : Handle) (key : UInt32) (value : FlatValue) (cache : FieldCache) :
    Run Heap FieldCache := do
  let key ← registeredKey key
  let v ← Run.host {} value.toValue
  if let some child := v.object? then Run.host {} (writeBarrier table child)
  let t ← Run.host {} (Heap.table table)
  let (overwritten, cache) ← Run.ofFault (overwriteField (← read) t key v cache)
  match overwritten with
  | some (_, t) => Run.host {} (Heap.setObject table (.table t))
  | none => Run.host {} (Heap.onTable table (Table.setStr key v))
  return cache

/-- The value of a field. The cache of the call site is passed by pointer and changed only by a
look-up that was carried out. -/
def getField (heap : HeapRef) (table : Handle) (key : UInt32) (cache : Option FieldCache) :
    Native (Tagged FlatValue × Option FieldCache) := do
  match cache with
  | none => return (← refuse .internal, none)
  | some cache =>
    match ← settle (onHeap heap (readField table key cache)) with
    | .error e => return (.error e, some cache)
    | .ok (cell, after) =>
      match FlatValue.ofValue? cell with
      | some v => return (.ok v, some after)
      | none => return (← refuse .internal, some after)

/-- Stores the value of a field. -/
def setField (heap : HeapRef) (table : Handle) (key : UInt32) (value : FlatValue)
    (cache : Option FieldCache) : Native (Tagged Unit × Option FieldCache) := do
  match cache with
  | none => return (← refuse .internal, none)
  | some cache =>
    match ← settle (onHeap heap (writeField table key value cache)) with
    | .error e => return (.error e, some cache)
    | .ok after => return (.ok (), some after)

/-- A loop body of native code, over a state of its own. It breaks the loop with an answer that is
not zero. -/
abbrev Body (S α : Type) := α → StateM S UInt32

/-- One run of a body, as a step of a loop. -/
def Body.run (body : Body S α) (value : α) : StateM S (Option Unit) := do
  return if (← body value) = 0 then none else some ()

/-- Loops over integers. The answer tells whether the body broke the loop, and the state it left
comes with it. -/
def intFor (init limit step : Int64) (site : Site) (body : Body S Int64) (state : S) :
    Native (Tagged Bool × S) := do
  match ← calculate site (IntRange.ofBounds init limit step) with
  | .error e => return (.error e, state)
  | .ok range =>
    let (broke, state) := (range.forEach body.run).run state
    return (.ok broke.isSome, state)

/-- Loops over floating-point numbers. -/
def floatFor (init limit step : Binary64) (site : Site) (body : Body S Binary64) (state : S) :
    Native (Tagged Bool × S) := do
  match ← calculate site (FloatRange.ofBounds init limit step) with
  | .error e => return (.error e, state)
  | .ok range =>
    let (broke, state) := (range.forEach body.run).run state
    return (.ok broke.isSome, state)

/-- The code of the last error, zero if there was none. -/
def lastErrorCode : Native UInt32 := do
  match (← getThe (Journal World)).host.lastError with
  | some e => return e.code
  | none => return 0

/-- The length of the last message, and as much of it as a buffer takes. -/
def lastErrorMessage (capacity : UInt32) : Native (UInt32 × Bytes) := do
  match (← getThe (Journal World)).host.lastError with
  | some e =>
    let bytes := Text.toBytes e.message
    return (UInt32.ofNat bytes.length, bytes.take capacity.toNat)
  | none => return (0, [])

end Abi

end TaggedRuntime
