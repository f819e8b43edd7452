import TaggedRuntime.Table.Basic

/-! How large the two parts of a table become when its hash part is full.

The array part gets the largest power of two `n` such that more than half of `1, ..., n` are in use;
what is left goes to the hash part. Candidates are counted by the slice `2 ^ (i - 1) < k ≤ 2 ^ i`
they fall into. -/

namespace TaggedRuntime

/-- The least `i` with `n ≤ 2 ^ i`. -/
def ceilLog2 (n : Nat) : Nat := if n ≤ 1 then 0 else (n - 1).log2 + 1

namespace Table

/-- The keys of the array part that hold a value. -/
def liveIndices (t : Table) : List Nat :=
  (t.array.toList.zipIdx 1).filterMap fun (v, i) => if v.isNil then none else some i

/-- The buckets that hold a value. -/
def liveNodes (t : Table) : List Node := t.nodes.toList.filter fun n => !n.value.isNil

/-- Candidates for the array part, by slice. -/
def tally (candidates : List Nat) : Array Nat :=
  candidates.foldl (fun counts k => counts.modify (ceilLog2 k) (· + 1))
    (Array.replicate (Limits.arrayBits + 1) 0)

/-- A size for the array part, and how many candidates it takes in. -/
structure ArraySize where
  size : Nat
  used : Nat
  deriving DecidableEq

/-- Walks the slices upwards with the number of candidates seen so far, and keeps the last power
of two of which more than half is in use. The walk ends where even all candidates would not be
enough. -/
def searchSize (candidates : Nat) : List Nat → (power seen : Nat) → ArraySize → ArraySize
  | [], _, _, best => best
  | count :: rest, power, seen, best =>
    if candidates ≤ power / 2 then best
    else
      let seen := seen + count
      searchSize candidates rest (2 * power) seen (if power / 2 < seen then ⟨power, seen⟩ else best)

def bestArraySize (candidates : List Nat) : ArraySize :=
  searchSize candidates.length (tally candidates).toList 1 0 ⟨0, 0⟩

/-- Sizes of the array part and the hash part for the live entries and one key more. -/
def sizesWith (t : Table) (extra : Key) : Nat × Nat :=
  let nodes := t.liveNodes
  let indices := t.liveIndices
  let candidates := indices ++ (nodes.map (·.key) ++ [extra]).filterMap Key.arrayCandidate?
  let best := bestArraySize candidates
  (best.size, indices.length + nodes.length + 1 - best.used)

end Table

end TaggedRuntime
