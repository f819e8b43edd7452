import Mathlib.Data.Finset.Card
import Mathlib.Logic.Relation
import TaggedRuntime.Table.Store
import TaggedRuntime.Proofs.Table.Key

/-! The chains of a hash part as a graph on positions. A search along a chain
is complete once the links climb some ranking of the positions: the ranking
bounds the length of every chain by the number of buckets. -/

namespace TaggedRuntime.Table

variable {t : Table}

/-- The bucket at a position holds a key, live or dead. -/
def Occupied (t : Table) (n : Nat) : Prop := (t.node n).key ≠ .vacant

instance (t : Table) (n : Nat) : Decidable (t.Occupied n) :=
  inferInstanceAs (Decidable ((t.node n).key ≠ .vacant))

/-- The number of buckets that hold a key. -/
def occupied (t : Table) : Nat := ((Finset.range t.bucketCount).filter t.Occupied).card

/-- The link of one bucket leads to another. -/
def Link (t : Table) (a b : Nat) : Prop :=
  (t.node a).next ≠ 0 ∧ (a : Int) + (t.node a).next = b

/-- A chain leads from one bucket to another, over any number of links. -/
abbrev Reaches (t : Table) : Nat → Nat → Prop := Relation.ReflTransGen t.Link

/-- A bucket as an entry of the array. One that there is not is empty. -/
theorem node_eq_getD (t : Table) (n : Nat) : t.node n = t.nodes[n]?.getD {} := by
  simp [node]

theorem node_eq_default (h : t.bucketCount ≤ n) : t.node n = {} := by
  have hSize : t.nodes.size ≤ n := h
  simp [node_eq_getD, hSize]

theorem Occupied.lt (h : t.Occupied n) : n < t.bucketCount := by
  by_contra hOut
  exact h (by rw [node_eq_default (Nat.le_of_not_lt hOut)])

theorem Link.lt_bucketCount (h : t.Link a b) : a < t.bucketCount := by
  by_contra hOut
  exact h.1 (by rw [node_eq_default (Nat.le_of_not_lt hOut)])

/-- A bucket has one successor at most. -/
theorem Link.right_unique (hb : t.Link a b) (hc : t.Link a c) : b = c := by
  have h := hb.2.symm.trans hc.2
  omega

/-- A link is a step by the distance in the node, so the walk of the program follows it. -/
theorem Link.step_eq (h : t.Link a b) : step a (t.node a).next = b := by
  simp [step, h.2]

theorem occupied_le (t : Table) : t.occupied ≤ t.bucketCount := by
  calc t.occupied ≤ (Finset.range t.bucketCount).card := Finset.card_filter_le _ _
    _ = t.bucketCount := Finset.card_range _

/-- Where a bucket is taken the number of taken ones is not zero. -/
theorem occupied_pos (h : t.Occupied n) : 0 < t.occupied :=
  Finset.card_pos.mpr ⟨n, by simpa using ⟨h.lt, h⟩⟩

/-- There is a vacant bucket exactly when not all of them hold a key. -/
theorem occupied_lt_iff : t.occupied < t.bucketCount ↔ ∃ n < t.bucketCount, ¬t.Occupied n := by
  have hCard := Finset.card_filter_add_card_filter_not (s := Finset.range t.bucketCount) t.Occupied
  rw [Finset.card_range] at hCard
  have hVacant : 0 < ((Finset.range t.bucketCount).filter (¬t.Occupied ·)).card ↔
      ∃ n < t.bucketCount, ¬t.Occupied n := by
    rw [Finset.card_pos]
    simp [Finset.Nonempty]
  rw [← hVacant, occupied]
  omega

/-- A bucket that comes to hold a key adds one to those that do, unless it did before. Only one
bucket has changed in this, and there are no more buckets than before. -/
theorem occupied_insert {t t' : Table} (hCount : t'.bucketCount = t.bucketCount) {p : Nat}
    (hIn : p < t.bucketCount) (h : ∀ m, t'.Occupied m ↔ m = p ∨ t.Occupied m) :
    t'.occupied = if t.Occupied p then t.occupied else t.occupied + 1 := by
  have hSet : (Finset.range t'.bucketCount).filter t'.Occupied =
      insert p ((Finset.range t.bucketCount).filter t.Occupied) := by
    ext m
    simp only [hCount, Finset.mem_filter, Finset.mem_range, Finset.mem_insert, h]
    constructor
    · rintro ⟨hm, rfl | hOccupied⟩
      · exact Or.inl rfl
      · exact Or.inr ⟨hm, hOccupied⟩
    · rintro (rfl | ⟨hm, hOccupied⟩)
      · exact ⟨hIn, Or.inl rfl⟩
      · exact ⟨hm, Or.inr hOccupied⟩
  unfold occupied
  rw [hSet]
  split
  next hOccupied =>
    rw [Finset.insert_eq_of_mem]
    simpa using ⟨hIn, hOccupied⟩
  next hVacant =>
    rw [Finset.card_insert_of_notMem]
    simp [hVacant]

/-! ### One bucket changed -/

@[simp] theorem bucketCount_modifyNode (t : Table) (n : Nat) (f : Node → Node) :
    (t.modifyNode n f).bucketCount = t.bucketCount := by
  simp [bucketCount, modifyNode]

@[simp] theorem array_modifyNode (t : Table) (n : Nat) (f : Node → Node) :
    (t.modifyNode n f).array = t.array := rfl

@[simp] theorem lastFree_modifyNode (t : Table) (n : Nat) (f : Node → Node) :
    (t.modifyNode n f).lastFree = t.lastFree := rfl

/-- One bucket is changed and the others are as they were. -/
theorem node_modifyNode (h : n < t.bucketCount) (f : Node → Node) (m : Nat) :
    (t.modifyNode n f).node m = if m = n then f (t.node n) else t.node m := by
  have hSize : n < t.nodes.size := h
  simp only [node_eq_getD, modifyNode, Array.getElem?_modify, eq_comm (a := n)]
  split
  next hEq => simp [hEq, hSize]
  next => rfl

/-! ### Searches -/

/-- A search looks at the buckets only, not at the array part or at the bound for free ones. -/
theorem search_congr {t' : Table} (h : t'.nodes = t.nodes) : t'.search = t.search := by
  have hNode (n : Nat) : t'.node n = t.node n := by simp [node, h]
  funext test fuel start
  induction fuel generalizing start with
  | zero => rfl
  | succ fuel ih => simp only [search, hNode, ih]

/-- What a search finds passes its test. -/
theorem test_of_search (test : Nat → Node → Bool) {fuel start n : Nat}
    (h : t.search test fuel start = some n) : test n (t.node n) = true := by
  induction fuel generalizing start with
  | zero => simp [search] at h
  | succ fuel ih =>
      simp only [search] at h
      split at h
      next hTest =>
        cases h
        exact hTest
      next =>
        split at h
        · cases h
        · exact ih h

/-- A ranking of positions that every link climbs, within the number of
buckets that hold a key. -/
structure Ranking (t : Table) (rank : Nat → Nat) : Prop where
  climbs : ∀ a b, t.Link a b → rank a < rank b
  below : ∀ n, rank n = 0 ∨ rank n < t.occupied

theorem Ranking.le_of_reaches {rank : Nat → Nat} (hRank : t.Ranking rank) {a b : Nat}
    (h : t.Reaches a b) : rank a ≤ rank b := by
  induction h with
  | refl => exact Nat.le_refl _
  | tail _ hLink ih => exact Nat.le_of_lt (Nat.lt_of_le_of_lt ih (hRank.climbs _ _ hLink))

/-- There are no more ranks than buckets, so fuel for as many is enough for every chain. -/
theorem Ranking.lt_bucketCount {rank : Nat → Nat} (hRank : t.Ranking rank)
    (hPos : 0 < t.bucketCount) (n : Nat) : rank n < t.bucketCount := by
  have hLe := t.occupied_le
  rcases hRank.below n with h | h <;> omega

/-- A search with enough fuel for the ranks above its start stops no later than at a bucket of the
chain that passes the test. The induction is on the fuel, with the start generalised. -/
theorem Ranking.search_isSome {rank : Nat → Nat} (hRank : t.Ranking rank)
    (hPos : 0 < t.bucketCount) (test : Nat → Node → Bool) {fuel start n : Nat}
    (hFuel : t.bucketCount ≤ rank start + fuel)
    (hReach : t.Reaches start n) (hTest : test n (t.node n) = true) :
    ∃ m, t.search test fuel start = some m ∧ t.Reaches m n := by
  induction fuel generalizing start with
  | zero =>
      have hLe := hRank.le_of_reaches hReach
      have hLt := hRank.lt_bucketCount hPos n
      omega
  | succ fuel ih =>
      simp only [search]
      by_cases hStart : test start (t.node start) = true
      · exact ⟨start, by simp [hStart], hReach⟩
      · rcases Relation.ReflTransGen.cases_head hReach with rfl | ⟨next, hLink, hRest⟩
        · exact False.elim (hStart hTest)
        · have hClimb := hRank.climbs _ _ hLink
          have hRestFuel : t.bucketCount ≤ rank next + fuel := by omega
          obtain ⟨m, hm, hBefore⟩ := ih hRestFuel hRest
          exact ⟨m, by simpa [hStart, hLink.1, hLink.step_eq] using hm, hBefore⟩

/-- A bucket on a chain that passes the test is found, or one before it is. No search ends for want
of fuel. -/
theorem Ranking.onChain_isSome {rank : Nat → Nat} (hRank : t.Ranking rank)
    (hPos : 0 < t.bucketCount) (test : Nat → Node → Bool) {start n : Nat}
    (hReach : t.Reaches start n) (hTest : test n (t.node n) = true) :
    ∃ m, t.onChain? start test = some m ∧ t.Reaches m n :=
  hRank.search_isSome hPos test (Nat.le_add_left _ _) hReach hTest

end TaggedRuntime.Table
