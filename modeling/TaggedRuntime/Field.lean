import TaggedRuntime.Config
import TaggedRuntime.Host.Basic

/-!
Field access through the bucket layout of a table, with a slot in which each call site remembers
where it found its field last.

A short key is first sought where the call site found it last, and otherwise along the chain of its
home bucket; where it is found is remembered. The remembered position is checked before it is
used, so a cache may hold anything. A long key is left to the table's own look-up.
-/

namespace TaggedRuntime

/-- The slot of a call site: a position of a bucket if it is not negative. -/
structure FieldCache where
  raw : Int32
  deriving DecidableEq

namespace FieldCache

/-- Nothing was looked up yet. -/
def unset : FieldCache := ⟨-1⟩

/-- The last look-up found no bucket. -/
def miss : FieldCache := ⟨Int32.minValue⟩

instance : Inhabited FieldCache := ⟨unset⟩

/-- The position that is remembered. -/
def slot? (c : FieldCache) : Option Nat :=
  if 0 ≤ c.raw then some c.raw.toInt.toNat else none

def isKnownMiss (c : FieldCache) : Bool := c = miss

/-- The cache that remembers a position, if it fits. -/
def remember (bucket : Nat) : FieldCache :=
  if bucket < twoPow 31 then ⟨Int32.ofNat bucket⟩ else miss

end FieldCache

/-! ### Look-up -/

/-- How a field was found: at the remembered position, behind a number of links, nowhere, or not
sought by its buckets. -/
inductive Probe where
  | hit (bucket : Nat)
  | walked (bucket steps : Nat)
  | miss
  | uncached
  deriving DecidableEq

/-- The position that a probe found. -/
def Probe.bucket? : Probe → Option Nat
  | .hit bucket => some bucket
  | .walked bucket _ => some bucket
  | _ => none

variable {T K C : Type} [TableLayout T K C]

/-- Follows a chain to the bucket that holds a key, counting the links passed. A link may lead out
of the buckets; a chain that visits more buckets than there are has no end. -/
def walkChain (t : T) (key : K) : (fuel : Nat) → (bucket steps : Nat) → Except Fault Probe
  | 0, _, _ => .error .endlessChain
  | fuel + 1, bucket, steps =>
    if TableLayout.bucketHolds t bucket key then .ok (.walked bucket steps)
    else
      match TableLayout.bucketNext? t bucket with
      | none => .error (.noBucket bucket)
      | some next =>
        if next = 0 then .ok .miss
        else if bucket + next < 0 then .error (.noBucket (bucket + next))
        else walkChain t key fuel (Table.step bucket next) (steps + 1)

/-- The remembered position, if it holds the key. -/
def cachedBucket? (t : T) (key : K) (cache : FieldCache) : Option Nat :=
  cache.slot?.filter fun slot =>
    slot < TableLayout.bucketCount t && TableLayout.bucketHolds t slot key

/-- The cache after a chain was walked. -/
def FieldCache.after : Probe → FieldCache → FieldCache
  | .walked bucket _, _ => remember bucket
  | .miss, _ => miss
  | _, cache => cache

/-- Seeks a key, and gives the cache that is left. With caching off the cache is neither read nor
changed. -/
def probe (config : Config) (t : T) (key : K) (cache : FieldCache) :
    Except Fault (Probe × FieldCache) := do
  if !TableLayout.isShortKey T key then return (.uncached, cache)
  if config.inlineCache then
    if let some slot := cachedBucket? t key cache then return (.hit slot, cache)
  let found ← walkChain t key (TableLayout.bucketCount t) (TableLayout.homeBucket t key) 0
  return (found, if config.inlineCache then cache.after found else cache)

/-- The cell at a position. -/
def cellAt (t : T) (bucket : Nat) : Except Fault C :=
  match TableLayout.bucketCell? t bucket with
  | some cell => .ok cell
  | none => .error (.noBucket bucket)

/-- The cell of a field; the absent cell if no bucket holds the key. -/
def getField (config : Config) (t : T) (key : K) (cache : FieldCache) :
    Except Fault (C × FieldCache) := do
  let (found, cache) ← probe config t key cache
  match found with
  | .hit bucket => return (← cellAt t bucket, cache)
  | .walked bucket _ => return (← cellAt t bucket, cache)
  | .miss => return (TableLayout.absentCell T, cache)
  | .uncached => return (TableLayout.lookupKey t key, cache)

/-- Overwrites the cell of a field that has one, and gives what it held. A field without a cell is
left to the caller to store. -/
def overwriteField (config : Config) (t : T) (key : K) (v : C) (cache : FieldCache) :
    Except Fault (Option (C × T) × FieldCache) := do
  let (found, cache) ← probe config t key cache
  match found with
  | .hit bucket => return (some (← cellAt t bucket, TableLayout.setBucketCell t bucket v), cache)
  | .walked bucket _ =>
    return (some (← cellAt t bucket, TableLayout.setBucketCell t bucket v), cache)
  | .miss => return (none, cache)
  | .uncached => return (TableLayout.overwriteKey? t key v, cache)

end TaggedRuntime
