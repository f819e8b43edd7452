import TaggedRuntime.Table.Key

/-! Tables: an array part for the keys `1, 2, ..., n` and a hash part for all others.

The hash part is a power of two of buckets. The buckets of one main position are linked by relative
offsets, zero ending the chain; a bucket whose value is nil keeps its key and its link until the
part is rebuilt. A table without hash entries has one bucket that is never filled. Free buckets are
handed out from the top, and `lastFree` is the bound below which the next one is sought. -/

namespace TaggedRuntime

/-- A bucket of the hash part. -/
structure Node where
  key : Key := .vacant
  value : Value := .nil
  next : Int := 0
  deriving DecidableEq, Inhabited

structure Table where
  array : Array Value := #[]
  nodes : Array Node := #[{}]
  lastFree : Option Nat := none
  metatable : Option Handle := none
  deriving DecidableEq

instance : Inhabited Table := ⟨{}⟩

namespace Table

def arrayLimit (t : Table) : Nat := t.array.size

def bucketCount (t : Table) : Nat := t.nodes.size

/-- Whether the hash part is the one bucket that is never filled. -/
def isDummy (t : Table) : Bool := t.lastFree.isNone

/-- The number of live entries of the hash part. -/
def hashLength (t : Table) : Nat := t.nodes.countP fun n => !n.value.isNil

/-- The bucket at a position; there is a vacant one everywhere outside. -/
def node (t : Table) (n : Nat) : Node := t.nodes.getD n {}

def home (t : Table) (k : Key) : Nat := k.mainPosition t.bucketCount

/-- The position that a link leads to. -/
def step (position : Nat) (next : Int) : Nat := (position + next).toNat

/-- The first position that passes a test on the chain from `n` on, among at most `fuel` of them. -/
@[specialize]
def search (t : Table) (test : Nat → Node → Bool) : (fuel : Nat) → (n : Nat) → Option Nat
  | 0, _ => none
  | fuel + 1, n =>
    let node := t.node n
    if test n node then some n
    else if node.next = 0 then none
    else t.search test fuel (step n node.next)

/-- The first position that passes a test on the chain from `n` on. A chain that visits no bucket
twice is as long as the hash part at most. -/
@[inline]
def onChain? (t : Table) (n : Nat) (test : Nat → Node → Bool) : Option Nat :=
  t.search test t.bucketCount n

/-- The bucket that an access under a key reaches. -/
def find? (t : Table) (k : Key) : Option Nat :=
  t.onChain? (t.home k) fun _ node => node.key.same k

/-- The slot of the array part for an integer key. -/
def arrayIndex? (t : Table) (k : Int64) : Option Nat :=
  let index := (k.toUInt64 - 1).toNat
  if index < t.array.size then some index else none

/-- The value in the bucket that a key reaches, `absent` if there is none. -/
def getNode (t : Table) (k : Key) : Value :=
  match t.find? k with
  | some n => (t.node n).value
  | none => .absent

def getInt (t : Table) (k : Int64) : Value :=
  match t.arrayIndex? k with
  | some i => t.array.getD i .nil
  | none => t.getNode (.int k)

/-- The value under a short string, found by identity. -/
def getShortStr (t : Table) (s : Str) : Value :=
  match t.onChain? (t.home (.str s)) fun _ node => node.key = .str s with
  | some n => (t.node n).value
  | none => .absent

def getStr (t : Table) (s : Str) : Value :=
  if s.isShort then t.getShortStr s else t.getNode (.str s)

/-- The cell of a key. A key that was erased still has its cell, with the nil that erased it; a
key that has no cell, or that is no key, is `absent`. -/
def get (t : Table) (k : Value) : Value :=
  match Key.ofValue k with
  | .ok (.int n) => t.getInt n
  | .ok key => t.getNode key
  | .error _ => .absent

/-- Whether an integer key has a live entry in the hash part. -/
def inHashPart (t : Table) (k : Int64) : Bool :=
  match t.find? (.int k) with
  | some n => !(t.node n).value.isNil
  | none => false

/-- The main position of a string. -/
def homeBucket (t : Table) (s : Str) : Nat := t.home (.str s)

/-- The short string whose bucket a position is. -/
def bucketShortStr? (t : Table) (n : Nat) : Option Str := (t.node n).key.shortStr?

def bucketNext? (t : Table) (n : Nat) : Option Int := t.nodes[n]?.map (·.next)

def bucketValue? (t : Table) (n : Nat) : Option Value := t.nodes[n]?.map (·.value)

/-- The table with one bucket changed. -/
def modifyNode (t : Table) (n : Nat) (f : Node → Node) : Table :=
  { t with nodes := t.nodes.modify n f }

/-- Overwrites the value of a bucket and leaves its key. -/
def setBucketValue (t : Table) (n : Nat) (v : Value) : Table :=
  t.modifyNode n fun node => { node with value := v }

/-- Overwrites the cell of a string that has one in the hash part, and gives the value it held. -/
def overwriteStr? (t : Table) (s : Str) (v : Value) : Option (Value × Table) :=
  (t.find? (.str s)).map fun n => ((t.node n).value, t.setBucketValue n v)

end Table

end TaggedRuntime
