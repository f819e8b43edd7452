import TaggedRuntime.Host.Basic

/-!
Hosts that follow a script: a heap that answers every query the same way and writes down what it was
told to do, and a table of given buckets in which all keys have one home. They show what the runtime
asks of a host that is not the one of this library.
-/

namespace TaggedRuntime

/-- What a host was told to do. -/
inductive HostCall where
  | newTable
  | resizeTable (table arraySize hashSize : Nat)
  | ensureCapacity (table length : Nat)
  | notifyReference (owner child : Nat)
  deriving DecidableEq

/-- A heap that answers alike for all objects. Growing succeeds or fails as the script says, and
sets the limit that is answered from then on. -/
structure ScriptedHeap where
  limit : Nat := 0
  metatable : Bool := false
  black : Bool := false
  white : Bool := false
  failNew : Bool := false
  failResize : Bool := false
  failGrow : Bool := false
  calls : List HostCall := []
  deriving DecidableEq

namespace ScriptedHeap

/-- The object that every new table is. -/
def newObject : Nat := 7

def record (call : HostCall) : HostM ScriptedHeap Unit :=
  modify fun h => { h with calls := h.calls ++ [call] }

def failIf (refuse : ScriptedHeap → Bool) : HostM ScriptedHeap Unit := do
  if refuse (← getThe ScriptedHeap) then throw (.refused .outOfMemory)

end ScriptedHeap

open ScriptedHeap in
instance : HeapManager ScriptedHeap Nat where
  isBlack _ := return (← getThe ScriptedHeap).black
  isWhite _ := return (← getThe ScriptedHeap).white
  notifyReference owner child := record (.notifyReference owner child)
  typeDescriptor? _ := return none
  newTable := do
    record .newTable
    failIf (·.failNew)
    return newObject
  resizeTable table arraySize hashSize := do
    record (.resizeTable table arraySize hashSize)
    failIf (·.failResize)
  arrayLimit _ := return (← getThe ScriptedHeap).limit
  hasMetatable _ := return (← getThe ScriptedHeap).metatable
  ensureCapacity table length := do
    record (.ensureCapacity table length)
    failIf (·.failGrow)
    modify fun h => { h with limit := length }

/-- A bucket with a key or none, a link, and a number as its cell. -/
structure ScriptedNode where
  key : Option Bytes
  next : Int
  cell : Int
  deriving DecidableEq

/-- A table of given buckets. Keys are byte strings, and their home is the same for all. -/
structure ScriptedLayout where
  home : Nat
  nodes : Array ScriptedNode
  deriving DecidableEq

namespace ScriptedLayout

/-- The cell of a key that no bucket holds. -/
def absentCell : Int := -999

/-- The first bucket that holds a key. -/
def position? (t : ScriptedLayout) (key : Bytes) : Option Nat :=
  t.nodes.findIdx? fun node => node.key = some key

def cellAt? (t : ScriptedLayout) (n : Nat) : Option Int := t.nodes[n]?.map (·.cell)

def setCell (t : ScriptedLayout) (n : Nat) (cell : Int) : ScriptedLayout :=
  { t with nodes := t.nodes.modify n fun node => { node with cell } }

end ScriptedLayout

instance : TableLayout ScriptedLayout Bytes Int where
  isShortKey key := key.length ≤ Limits.shortLength
  bucketCount t := t.nodes.size
  homeBucket t _ := t.home
  bucketHolds t n key := (t.nodes[n]?.bind (·.key)) = some key
  bucketNext? t n := t.nodes[n]?.map (·.next)
  bucketCell? := ScriptedLayout.cellAt?
  setBucketCell := ScriptedLayout.setCell
  absentCell := ScriptedLayout.absentCell
  lookupKey t key :=
    ((t.position? key).bind t.cellAt?).getD ScriptedLayout.absentCell
  overwriteKey? t key cell := do
    let n ← t.position? key
    return (← t.cellAt? n, t.setCell n cell)

end TaggedRuntime
