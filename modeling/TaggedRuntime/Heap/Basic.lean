import Std.Data.HashMap
import TaggedRuntime.Table.Store

/-!
A heap of tables and userdata with collector colours, interned strings, and registered field
names.

Objects are named by their position and never removed. A black object that may have been given a
white child turns gray again and is queued for another visit.
-/

namespace TaggedRuntime

/-- What the collector knows of an object: not seen, seen, or visited with all its children. -/
inductive Color where
  | white
  | gray
  | black
  deriving DecidableEq, Inhabited

/-- An object that only a record type's native code looks into. -/
structure Userdata where
  metatable : Option Handle := none
  values : List Value := []
  deriving DecidableEq, Inhabited

inductive Object where
  | table (t : Table)
  | userdata (u : Userdata)
  deriving DecidableEq, Inhabited

structure Entry where
  color : Color
  object : Object
  deriving DecidableEq, Inhabited

/-- A breach of what callers promise: a name of nothing, or of the wrong kind of thing. -/
inductive Fault where
  | noObject (h : Handle)
  | notTable (h : Handle)
  | noBucket (position : Int)
  | endlessChain
  | unknownKey (id : UInt32)
  | unknownTag (tag : UInt32)
  | nullPointer
  deriving DecidableEq

/-- The text of a fault that has one. -/
def Fault.message? : Fault → Option String
  | .notTable h => some ("object " ++ toString h.index.toNat ++ " is not a table")
  | _ => none

/-- How an operation on a heap fails. -/
inductive HeapFailure where
  | fault (f : Fault)
  | refused (e : StoreError)
  deriving DecidableEq

/-- A heap. `number` tells the strings of one heap from those of another, and `serial` is given to
the next string made. -/
structure Heap where
  number : Nat := 0
  objects : Array Entry := #[]
  strings : Std.HashMap Bytes Str := {}
  keys : Array Str := #[]
  grayAgain : List Handle := []
  serial : Nat := 0
  deriving Inhabited

/-- Operations on a state `σ` that may fail. What was changed before a failure stays. -/
abbrev HostM (σ : Type) := EStateM HeapFailure σ

namespace Heap

def fault (f : Fault) : HostM σ α := throw (.fault f)

/-- A new object is white. A heap holds no more objects than there are handles. -/
def alloc (o : Object) : HostM Heap Handle := do
  let size := (← getThe Heap).objects.size
  if Limits.handles ≤ size then throw (.refused .outOfMemory)
  modify fun h => { h with objects := h.objects.push ⟨.white, o⟩ }
  return ⟨UInt32.ofNat size⟩

def entry (r : Handle) : HostM Heap Entry := do
  match (← getThe Heap).objects[r.index.toNat]? with
  | some e => return e
  | none => fault (.noObject r)

def object (r : Handle) : HostM Heap Object := return (← entry r).object

def table (r : Handle) : HostM Heap Table := do
  match ← object r with
  | .table t => return t
  | .userdata _ => fault (.notTable r)

def userdata? (r : Handle) : HostM Heap (Option Userdata) := do
  match ← object r with
  | .table _ => return none
  | .userdata u => return some u

def setObject (r : Handle) (o : Object) : HostM Heap Unit :=
  modify fun h => { h with objects := h.objects.modify r.index.toNat fun e => { e with object := o } }

/-- Runs a change on a table of the heap, and keeps what it changed also when it is refused. -/
def onTable (r : Handle) (change : Table.Store α) : HostM Heap α := do
  match change (← table r) with
  | .ok a t =>
    setObject r (.table t)
    return a
  | .error e t =>
    setObject r (.table t)
    throw (.refused e)

def color (r : Handle) : HostM Heap Color := return (← entry r).color

def setColor (r : Handle) (c : Color) : HostM Heap Unit := do
  let _ ← entry r
  modify fun h => { h with objects := h.objects.modify r.index.toNat fun e => { e with color := c } }

/-- Turns a black object gray and queues it; any other object is left alone. -/
def barrierBack (owner : Handle) : HostM Heap Unit := do
  if (← color owner) = .black then
    setColor owner .gray
    modify fun h => { h with grayAgain := h.grayAgain ++ [owner] }

/-- Empties the queue of objects to visit again. -/
def takeGrayAgain : HostM Heap (List Handle) :=
  modifyGet fun h => (h.grayAgain, { h with grayAgain := [] })

/-- A string that no other is identical to. -/
def freshStr (bytes : Bytes) : HostM Heap Str :=
  modifyGet fun h => (⟨h.serial, h.number, bytes⟩, { h with serial := h.serial + 1 })

/-- The string with given contents: a short one is made once, a long one each time. -/
def newStr (bytes : Bytes) : HostM Heap Str := do
  if Limits.shortLength < bytes.length then freshStr bytes
  else
    match (← getThe Heap).strings[bytes]? with
    | some s => return s
    | none =>
      let s ← freshStr bytes
      modify fun h => { h with strings := h.strings.insert bytes s }
      return s

def internedCount (h : Heap) : Nat := h.strings.size

/-- Registers a field name under the next id. -/
def registerKey (bytes : Bytes) : HostM Heap UInt32 := do
  let id := (← getThe Heap).keys.size
  if Limits.handles ≤ id then throw (.refused .outOfMemory)
  let s ← newStr bytes
  modify fun h => { h with keys := h.keys.push s }
  return UInt32.ofNat id

def key? (h : Heap) (id : UInt32) : Option Str := h.keys[id.toNat]?

end Heap

end TaggedRuntime
