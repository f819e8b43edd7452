import TaggedRuntime.Proofs.Table.Operation

/-! The loops over chains. None of them checks how far it went; that they end
before they have passed as many links as there are buckets follows from the
representation invariant. -/

namespace TaggedRuntime.Table

variable {t : Table}

/-- The position behind a number of links. -/
def follow (t : Table) : (links : Nat) → (start : Nat) → Nat
  | 0, start => start
  | links + 1, start => t.follow links (step start (t.node start).next)

/-- What a search finds lies on the chain from its start. The number of links to it is less than the
bound of the search. -/
theorem follow_of_search (test : Nat → Node → Bool) {fuel start n : Nat}
    (h : t.search test fuel start = some n) : ∃ links < fuel, t.follow links start = n := by
  induction fuel generalizing start with
  | zero => cases h
  | succ fuel ih =>
      simp only [search] at h
      split at h
      next =>
        cases h
        exact ⟨0, Nat.succ_pos _, rfl⟩
      next =>
        split at h
        next => cases h
        next =>
          obtain ⟨links, hLt, hFollow⟩ := ih h
          exact ⟨links + 1, Nat.succ_lt_succ hLt, hFollow⟩

/-- A search whose chain ends is not stopped by its bound. Every larger bound gives the same. -/
theorem search_eq_of_end (test : Nat → Node → Bool) {links fuel start : Nat}
    (hEnd : (t.node (t.follow links start)).next = 0) (hFuel : links < fuel) :
    t.search test fuel start = t.search test (links + 1) start := by
  induction links generalizing fuel start with
  | zero =>
      cases fuel with
      | zero => omega
      | succ fuel =>
          have hNext : (t.node start).next = 0 := hEnd
          simp [search, hNext]
  | succ links ih =>
      cases fuel with
      | zero => omega
      | succ fuel =>
          rw [search, search, ih hEnd (by omega)]

/-- A chain whose links climb a ranking ends, and every bucket on the way is one of the table's. The
bound is the one that the program itself would need, though it has none. -/
theorem Ranking.follow_end {rank : Nat → Nat} (hRank : t.Ranking rank) (hChained : t.Chained)
    {fuel start : Nat} (hFuel : t.bucketCount ≤ rank start + fuel) (hStart : start < t.bucketCount) :
    ∃ links < fuel, (t.node (t.follow links start)).next = 0 ∧
      ∀ i ≤ links, t.follow i start < t.bucketCount := by
  induction fuel generalizing start with
  | zero =>
      have hLt := hRank.lt_bucketCount hChained.bucketCount_pos start
      omega
  | succ fuel ih =>
      by_cases hNext : (t.node start).next = 0
      · refine ⟨0, Nat.succ_pos _, hNext, fun i hi => ?_⟩
        rw [Nat.le_zero.mp hi]
        exact hStart
      · obtain ⟨b, hLink, hHeld⟩ := hChained.inside start hNext
        have hClimb := hRank.climbs start b hLink
        have hRest : t.bucketCount ≤ rank b + fuel := by omega
        obtain ⟨links, hLt, hEnd, hInside⟩ := ih hRest hHeld.lt
        refine ⟨links + 1, Nat.succ_lt_succ hLt, ?_, fun i hi => ?_⟩
        · rw [follow, hLink.step_eq]
          exact hEnd
        · cases i with
          | zero => exact hStart
          | succ i =>
              rw [follow, hLink.step_eq]
              exact hInside i (Nat.le_of_succ_le_succ hi)

/-- The chain from a key's main position ends. -/
theorem Chained.follow_end (hChained : t.Chained) (k : Key) :
    ∃ links < t.bucketCount, (t.node (t.follow links (t.home k))).next = 0 ∧
      ∀ i ≤ links, t.follow i (t.home k) < t.bucketCount := by
  obtain ⟨rank, hRank⟩ := hChained.ranked
  exact hRank.follow_end hChained (Nat.le_add_left _ _) (hChained.home_lt k)

/-- No chain of a well-formed table is a cycle: ranks would have to climb for ever. -/
theorem Chained.acyclic (hChained : t.Chained) (n : Nat) : ¬Relation.TransGen t.Link n n := by
  obtain ⟨rank, hRank⟩ := hChained.ranked
  have hClimb {a b : Nat} (h : Relation.TransGen t.Link a b) : rank a < rank b := by
    induction h with
    | single hLink => exact hRank.climbs _ _ hLink
    | tail _ hLink ih => exact Nat.lt_trans ih (hRank.climbs _ _ hLink)
  exact fun h => Nat.lt_irrefl _ (hClimb h)

/-- Every table that is reached has the representation invariant. No chain is a
cycle, and a vacant bucket is on none. The chain from a main position ends
within the buckets, so the loop that seeks a key ends, and no bound that is
large enough changes what it finds. The loop that seeks the bucket before one
that is not at home ends there. -/
theorem reachable_wellFormed (hReachable : t.Reachable) :
    t.WellFormed ∧
    (∀ n, ¬Relation.TransGen t.Link n n) ∧
    (∀ a b, t.Link a b → b < t.bucketCount ∧ t.Occupied a ∧ t.Occupied b) ∧
    (∀ k, ∃ links < t.bucketCount, (t.node (t.follow links (t.home k))).next = 0 ∧
      ∀ i ≤ links, t.follow i (t.home k) < t.bucketCount) ∧
    (∀ k test fuel, t.bucketCount ≤ fuel → t.search test fuel (t.home k) = t.onChain? (t.home k) test) ∧
    (∀ n, t.Occupied n → t.home (t.node n).key ≠ n →
      ∃ links < t.bucketCount, t.Link (t.follow links (t.home (t.node n).key)) n ∧
        t.predecessor (t.home (t.node n).key) n = t.follow links (t.home (t.node n).key)) := by
  have hWell := hReachable.wellFormed
  have hChained := hWell.toChained
  refine ⟨hWell, hChained.acyclic, fun a b hLink => ?_, hChained.follow_end, fun k test fuel hFuel => ?_,
    fun n hHeld hAway => ?_⟩
  · have hRight := hChained.occupied_right hLink
    exact ⟨hRight.lt, hChained.occupied_left hLink, hRight⟩
  · obtain ⟨links, hLt, hEnd, _⟩ := hChained.follow_end k
    rw [onChain?, search_eq_of_end test hEnd (Nat.lt_of_lt_of_le hLt hFuel),
      search_eq_of_end test hEnd hLt]
  · have hLink := link_predecessor hChained (hChained.reached n hHeld) hAway
    have hFollow : ∃ links < t.bucketCount,
        t.follow links (t.home (t.node n).key) = t.predecessor (t.home (t.node n).key) n := by
      unfold predecessor
      cases hSearch : t.onChain? (t.home (t.node n).key) fun p node => step p node.next = n with
      | none => exact ⟨0, hChained.bucketCount_pos, rfl⟩
      | some m => exact follow_of_search _ hSearch
    obtain ⟨links, hLt, hEq⟩ := hFollow
    exact ⟨links, hLt, hEq ▸ hLink, hEq.symm⟩

/-- Three keys of one main position, the last of which was linked in between. -/
theorem reachable_wellFormed_linked : ∃ t : Table, t.Reachable ∧ t.WellFormed ∧
    (t.home (.int 3) = 0 ∧ t.home (.int 6) = 0 ∧ t.home (.int 9) = 0) ∧
    t.follow 1 0 = 2 ∧ t.follow 2 0 = 3 ∧ (t.node 3).next = 0 := by
  have hReachable := Reachable.new none
    |>.step (.resize 0 4)
    |>.step (.setInt 3 (.bool true))
    |>.step (.setInt 6 (.bool true))
    |>.step (.setInt 9 (.bool true))
  exact ⟨_, hReachable, (reachable_wellFormed hReachable).1, by decide⟩

end TaggedRuntime.Table
