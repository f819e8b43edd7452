import TaggedRuntime.Proofs.Table.Chain

/-! The representation invariant of tables, and what a table stands for: the
entry of each key. Under the invariant the look-ups of the hash part find a
key exactly where a bucket holds it. -/

namespace TaggedRuntime

/-- A value unless it is one of the nils. -/
def Value.nonNil? (v : Value) : Option Value := if v.isNil then none else some v

theorem Value.nonNil?_eq_some_iff (v w : Value) :
    v.nonNil? = some w ↔ v = w ∧ w.isNil = false := by
  unfold nonNil?
  split
  next hNil =>
    simp only [reduceCtorEq, false_iff, not_and]
    rintro rfl
    simp [hNil]
  next hLive =>
    simp only [Option.some.injEq]
    constructor
    · rintro rfl
      exact ⟨rfl, by simpa using hLive⟩
    · exact And.left

theorem Value.nonNil?_eq_none_iff (v : Value) : v.nonNil? = none ↔ v.isNil = true := by
  simp [nonNil?]

namespace Table

/-- The array slot of a key. -/
def slot? (t : Table) : Key → Option Nat
  | .int n => t.arrayIndex? n
  | _ => none

/-- The cell of a key, wherever it is kept. -/
def lookup (t : Table) : Key → Value
  | .int n => t.getInt n
  | k => t.getNode k

/-- The value that a table holds under a key. -/
def held? (t : Table) (k : Key) : Option Value := (t.lookup k).nonNil?

/-- The part of the invariant that does not depend on where free buckets are
sought: chains stay inside, join nowhere and end; a key is held once, on the
chain of its main position; and the bucket at the main position of a key that
is held belongs to that position itself. -/
structure Chained (t : Table) : Prop where
  buckets : ∃ bits, bits ≤ Limits.hashBits ∧ t.bucketCount = twoPow bits
  slots : t.arrayLimit ≤ twoPow Limits.arrayBits
  vacant : ∀ n, ¬t.Occupied n → t.node n = {}
  inside : ∀ a, (t.node a).next ≠ 0 → ∃ b, t.Link a b ∧ t.Occupied b
  joinless : ∀ a b c, t.Link a c → t.Link b c → a = b
  ranked : ∃ rank, t.Ranking rank
  distinct : ∀ a b, (t.node a).key.same (t.node b).key = true → a = b
  reached : ∀ n, t.Occupied n → t.Reaches (t.home (t.node n).key) n
  homes : ∀ n, t.Occupied n → t.Occupied (t.home (t.node n).key) ∧
    t.home (t.node (t.home (t.node n).key)).key = t.home (t.node n).key
  unshadowed : ∀ n, t.slot? (t.node n).key = none

/-- The representation invariant. -/
structure WellFormed (t : Table) : Prop extends Chained t where
  dummy : t.lastFree = none → t.nodes = #[{}]
  bound : ∀ bound, t.lastFree = some bound → bound ≤ t.bucketCount
  taken : ∀ bound, t.lastFree = some bound →
    ∀ n, bound ≤ n → n < t.bucketCount → t.Occupied n

variable {t : Table}

/-- A look-up goes to the slot of its key, or to the hash part if there is none. -/
theorem lookup_eq (t : Table) (k : Key) : t.lookup k =
    match t.slot? k with
    | some i => t.array.getD i .nil
    | none => t.getNode k := by
  cases k <;> rfl

theorem find?_congr {t' : Table} (h : t'.nodes = t.nodes) : t'.find? = t.find? := by
  funext k
  simp only [find?, onChain?, search_congr h, home, bucketCount, h]

/-- What is found in the hash part depends on the buckets only. -/
theorem getNode_congr {t' : Table} (h : t'.nodes = t.nodes) : t'.getNode = t.getNode := by
  funext k
  simp only [getNode, find?_congr h, node, h]

theorem slot?_eq_of_same {k l : Key} (h : k.same l = true) (t : Table) :
    t.slot? k = t.slot? l := by
  cases k <;> cases l <;> simp_all [Key.same, slot?]

theorem not_same_of_slot? {k l : Key} {i j : Option Nat} (hk : t.slot? k = i)
    (hl : t.slot? l = j) (hne : i ≠ j) : k.same l ≠ true :=
  fun hSame => hne (hk.symm.trans ((slot?_eq_of_same hSame t).trans hl))

/-- The slot of a key is within the array part. -/
theorem slot?_lt {k : Key} {i : Nat} (h : t.slot? k = some i) : i < t.array.size := by
  cases k with
  | int n =>
      simp only [slot?, arrayIndex?] at h
      split at h
      next hLt =>
        cases h
        exact hLt
      next => cases h
  | _ => cases h

/-- Keys of one array slot are the same key. -/
theorem same_of_slot? {k l : Key} {i : Nat} (hk : t.slot? k = some i)
    (hl : t.slot? l = some i) : k.same l = true := by
  cases k <;> cases l <;> simp only [slot?, reduceCtorEq] at hk hl
  next m n =>
    simp only [arrayIndex?, Option.ite_none_right_eq_some, Option.some.injEq] at hk hl
    have hWord : m.toUInt64 - 1 = n.toUInt64 - 1 :=
      UInt64.toNat_inj.mp (hk.2.trans hl.2.symm)
    have hWord : m.toUInt64 = n.toUInt64 := by simpa using hWord
    simpa [Key.same] using congrArg UInt64.toInt64 hWord

/-- Keys that are the same have the same main position. -/
theorem home_eq_of_same {k l : Key} (h : k.same l = true) (t : Table) : t.home k = t.home l :=
  Key.mainPosition_eq_of_same h _

namespace Chained

theorem bucketCount_pos (hChained : t.Chained) : 0 < t.bucketCount := by
  obtain ⟨bits, _, hCount⟩ := hChained.buckets
  exact hCount ▸ twoPow_pos bits

theorem home_lt (hChained : t.Chained) (k : Key) : t.home k < t.bucketCount := by
  obtain ⟨bits, _, hCount⟩ := hChained.buckets
  simpa [home, hCount] using k.mainPosition_lt bits

theorem occupied_right (hChained : t.Chained) {a b : Nat} (h : t.Link a b) : t.Occupied b := by
  obtain ⟨c, hLink, hOccupied⟩ := hChained.inside a h.1
  exact h.right_unique hLink ▸ hOccupied

/-- A vacant bucket has no link. -/
theorem occupied_left (hChained : t.Chained) {a b : Nat} (h : t.Link a b) : t.Occupied a := by
  by_contra hVacant
  exact h.1 (by rw [hChained.vacant a hVacant])

/-- No bucket is linked to itself. A distance of zero is the end of a chain. -/
theorem not_link_self (hChained : t.Chained) (n : Nat) : ¬t.Link n n := by
  obtain ⟨rank, hRank⟩ := hChained.ranked
  exact fun h => Nat.lt_irrefl _ (hRank.climbs n n h)

/-- The look-up in the hash part finds the one bucket of a key. The search goes from the main
position along the chain, and the key is on it. -/
theorem find?_eq_some_iff (hChained : t.Chained) (k : Key) (n : Nat) :
    t.find? k = some n ↔ (t.node n).key.same k = true := by
  constructor
  · exact fun h => test_of_search (fun _ node => node.key.same k) h
  · intro hSame
    obtain ⟨rank, hRank⟩ := hChained.ranked
    have hReach := hChained.reached n (Key.ne_vacant_of_same hSame)
    rw [home_eq_of_same hSame t] at hReach
    obtain ⟨m, hm, _⟩ := hRank.onChain_isSome hChained.bucketCount_pos
      (fun _ node => node.key.same k) hReach hSame
    have hFound := test_of_search (fun _ node => node.key.same k) hm
    have hEq : m = n := hChained.distinct m n (Key.same_trans hFound (Key.same_symm hSame))
    exact hEq ▸ hm

/-- A key is not found exactly if no bucket has it, so a search cannot miss one. -/
theorem find?_eq_none_iff (hChained : t.Chained) (k : Key) :
    t.find? k = none ↔ ∀ n, (t.node n).key.same k = false := by
  constructor
  · intro hNone n
    by_contra hSame
    rw [Bool.not_eq_false, ← hChained.find?_eq_some_iff, hNone] at hSame
    cases hSame
  · intro hAll
    by_contra hSome
    obtain ⟨n, hn⟩ := Option.ne_none_iff_exists'.mp hSome
    rw [hChained.find?_eq_some_iff, hAll n] at hn
    cases hn

/-- The value of the bucket that has a key is what is found under it. -/
theorem getNode_eq_of_same (hChained : t.Chained) {k : Key} {n : Nat}
    (h : (t.node n).key.same k = true) : t.getNode k = (t.node n).value := by
  simp [getNode, (hChained.find?_eq_some_iff k n).mpr h]

/-- A live value is found under a key exactly if a bucket has both. -/
theorem getNode_nonNil?_eq_some_iff (hChained : t.Chained) (k : Key) (v : Value) :
    (t.getNode k).nonNil? = some v ↔
      v.isNil = false ∧ ∃ n, (t.node n).key.same k = true ∧ (t.node n).value = v := by
  rw [Value.nonNil?_eq_some_iff, and_comm]
  refine and_congr_right fun hLive => ⟨fun hGet => ?_, ?_⟩
  · unfold getNode at hGet
    split at hGet
    next n hFind => exact ⟨n, (hChained.find?_eq_some_iff k n).mp hFind, hGet⟩
    next =>
      subst hGet
      cases hLive
  · rintro ⟨n, hSame, hValue⟩
    exact (hChained.getNode_eq_of_same hSame).trans hValue

end Chained

end Table

end TaggedRuntime
