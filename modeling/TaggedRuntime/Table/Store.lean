import TaggedRuntime.Table.Sizing

/-!
Storing into a table.

A new key goes to its main position if that is free. If the entry there is not at home, it moves to
a free bucket and makes room; if it is at home, the new key takes a free bucket and is linked behind
it. When no bucket is free the table is rebuilt with the sizes it needs, and the store starts over.

A store may lead to a rebuild and a rebuild stores all entries again, so stores carry a bound on
the rebuilds that may still be nested. A store from outside allows one; the stores of the rebuild it
causes, and the store that starts over, need none.
-/

namespace TaggedRuntime

namespace Table

/-- Changes to a table that may be refused. What was changed before a refusal stays. -/
abbrev Store := EStateM StoreError Table

/-- The nearest vacant bucket below a bound. -/
def vacantBelow (t : Table) : Nat → Option Nat
  | 0 => none
  | n + 1 => if (t.node n).key.isVacant then some n else t.vacantBelow n

/-- Takes the next free bucket. -/
def takeFree : Store (Option Nat) := do
  let t ← getThe Table
  match t.lastFree with
  | none => return none
  | some bound =>
    let free := t.vacantBelow bound
    modify fun t => { t with lastFree := some (free.getD 0) }
    return free

/-- Fills a bucket and leaves its link. -/
def fillNode (t : Table) (n : Nat) (k : Key) (v : Value) : Table :=
  t.modifyNode n fun node => { node with key := k, value := v }

/-- The bucket whose link leads to `n`, on the chain that starts at `start`. -/
def predecessor (t : Table) (start n : Nat) : Nat :=
  (t.onChain? start fun p node => step p node.next = n).getD start

/-- Moves the entry at `n`, which belongs to the chain of `start`, to a free bucket, and stores a
new entry in its place. -/
def displace (t : Table) (start n free : Nat) (k : Key) (v : Value) : Table :=
  let before := t.predecessor start n
  let moved := t.node n
  let next := if moved.next = 0 then 0 else moved.next + ((n : Int) - free)
  let t := t.modifyNode before fun node => { node with next := (free : Int) - before }
  let t := t.modifyNode n fun _ => {}
  let t := t.modifyNode free fun _ => { moved with next }
  t.fillNode n k v

/-- Stores a new entry in a free bucket and links it behind the one at `n`. -/
def append (t : Table) (n free : Nat) (k : Key) (v : Value) : Table :=
  let next := (t.node n).next
  let t := t.modifyNode free fun _ =>
    { key := k, value := v, next := if next = 0 then 0 else next + ((n : Int) - free) }
  t.modifyNode n fun node => { node with next := (free : Int) - n }

/-- Stores a key that the table does not hold. `grow` takes over when no bucket is free. -/
def newKey (grow : Key → Value → Store Unit) (k : Key) (v : Value) : Store Unit := do
  let t ← getThe Table
  let n := t.home k
  if !(t.node n).value.isNil || t.isDummy then
    match ← takeFree with
    | none => grow k v
    | some free =>
      let start := t.home (t.node n).key
      if start = n then modify fun t => t.append n free k v
      else modify fun t => t.displace start n free k v
  else modify fun t => t.fillNode n k v

/-- Stores under a key: in its array slot, in the bucket it has, or in a new one. A nil that would
need a new bucket is not stored. -/
def setKeyWith (grow : Key → Value → Store Unit) (k : Key) (v : Value) : Store Unit := do
  let t ← getThe Table
  let slot? :=
    match k with
    | .int n => t.arrayIndex? n
    | _ => none
  match slot? with
  | some i => modify fun t => { t with array := t.array.setIfInBounds i v }
  | none =>
    match t.find? k with
    | some n => modify fun t => t.setBucketValue n v
    | none => if v.isNil then return () else newKey grow k v

/-- The entries that have to be stored again when the hash part is replaced and the array part cut
to a size: those behind the cut, then those of the buckets. -/
def displaced (t : Table) (arraySize : Nat) : List (Key × Value) :=
  let behind := (t.array.toList.drop arraySize).zipIdx (arraySize + 1)
  behind.filterMap (fun (v, i) => if v.isNil then none else some (.int (Int64.ofNat i), v))
    ++ t.liveNodes.map fun node => (node.key, node.value)

/-- The array part cut or filled up with nil to a size. -/
def resizedArray (array : Array Value) (size : Nat) : Array Value :=
  if size < array.size then array.extract 0 size
  else array ++ Array.replicate (size - array.size) .nil

/-- Gives both parts a size, the hash part rounded up to a power of two, and stores with `put` what
lost its place. Sizes past the limits are refused before anything changes. -/
def resizeWith (put : Key → Value → Store Unit) (arraySize hashSize : Nat) : Store Unit := do
  if twoPow Limits.arrayBits < arraySize then throw .outOfMemory
  if Limits.hashBits < ceilLog2 hashSize then throw .outOfMemory
  let t ← getThe Table
  let entries := t.displaced arraySize
  let buckets := twoPow (ceilLog2 hashSize)
  modify fun t =>
    { t with
      array := resizedArray t.array arraySize
      nodes := Array.replicate buckets {}
      lastFree := if hashSize = 0 then none else some buckets }
  entries.forM fun (k, v) => put k v

/-- Rebuilds the table for its live entries and one key more. -/
def rehash (put : Key → Value → Store Unit) (extra : Key) : Store Unit := do
  let (arraySize, hashSize) := (← getThe Table).sizesWith extra
  resizeWith put arraySize hashSize

/-- Stores under a key, with a bound on the rebuilds that may be nested. -/
def setKey : (rebuilds : Nat) → Key → Value → Store Unit
  | 0 => setKeyWith fun _ _ => throw .unsettled
  | rebuilds + 1 =>
    setKeyWith fun k v => do
      rehash (setKey rebuilds) k
      setKey rebuilds k v

def setInt (k : Int64) (v : Value) : Store Unit := setKey 1 (.int k) v

def setStr (s : Str) (v : Value) : Store Unit := setKey 1 (.str s) v

/-- Stores under any value that is a key. -/
def set (k v : Value) : Store Unit := do
  match Key.ofValue k with
  | .ok key => setKey 1 key v
  | .error e => throw e

/-- Gives both parts a size. Entries that find no place again may rebuild the table once each. -/
def resize (arraySize hashSize : Nat) : Store Unit := resizeWith (setKey 1) arraySize hashSize

/-- Gives the array part a size and leaves the hash part as large as it is. -/
def resizeArray (arraySize : Nat) : Store Unit := do
  let t ← getThe Table
  resize arraySize (if t.isDummy then 0 else t.bucketCount)

end Table

end TaggedRuntime
