import TaggedRuntime.Proofs.Table.WellFormed

/-! The three ways a new key gets its bucket: into a bucket of its own main
position that holds nothing live, behind the entry at that position, or in
place of an entry that moves out. Each keeps the chains and changes the entry
of one key. -/

namespace TaggedRuntime.Table

variable {t t' : Table} {k : Key} {v : Value} {p : Nat} {move : Nat → Nat}

/-- A key that has neither a bucket nor an array slot, so that storing it takes
a new bucket. -/
structure Insertable (t : Table) (k : Key) : Prop where
  key : k ≠ .vacant
  absent : ∀ n, (t.node n).key.same k = false
  slotless : t.slot? k = none

/-- A key is new at position `p`, and what other buckets hold was there before
at positions that `move` takes to where it is now. Only dead entries are lost. -/
structure Placed (t t' : Table) (k : Key) (v : Value) (p : Nat) (move : Nat → Nat) : Prop where
  array : t'.array = t.array
  count : t'.bucketCount = t.bucketCount
  key : (t'.node p).key = k
  value : (t'.node p).value = v
  old : ∀ m, m ≠ p → t'.Occupied m → ∃ n, move n = m ∧
    (t'.node m).key = (t.node n).key ∧ (t'.node m).value = (t.node n).value
  kept : ∀ n, (t.node n).value.isNil = false →
    (t'.node (move n)).key = (t.node n).key ∧ (t'.node (move n)).value = (t.node n).value

namespace Placed

theorem home_eq (h : t.Placed t' k v p move) (l : Key) : t'.home l = t.home l := by
  simp [home, h.count]

theorem slot?_eq (h : t.Placed t' k v p move) (l : Key) : t'.slot? l = t.slot? l := by
  cases l <;> simp [slot?, arrayIndex?, h.array]

/-- Two buckets with the same key are one, also after the new key came in: it was in none before. -/
theorem distinct (h : t.Placed t' k v p move) (hChained : t.Chained) (hNew : t.Insertable k)
    (a b : Nat) (hSame : (t'.node a).key.same (t'.node b).key = true) : a = b := by
  have hNever (m : Nat) (hm : m ≠ p) : (t'.node m).key.same k = false := by
    by_contra hSame
    rw [Bool.not_eq_false] at hSame
    obtain ⟨n, _, hKey, _⟩ := h.old m hm (Key.ne_vacant_of_same hSame)
    rw [hKey, hNew.absent n] at hSame
    cases hSame
  by_cases ha : a = p <;> by_cases hb : b = p
  · exact ha.trans hb.symm
  · subst ha
    rw [h.key, Key.same_comm, hNever b hb] at hSame
    cases hSame
  · subst hb
    rw [h.key, hNever a ha] at hSame
    cases hSame
  · obtain ⟨m, hMoveA, hKeyA, _⟩ := h.old a ha (Key.ne_vacant_of_same hSame)
    obtain ⟨n, hMoveB, hKeyB, _⟩ := h.old b hb (Key.ne_vacant_of_same (Key.same_symm hSame))
    rw [hKeyA, hKeyB] at hSame
    rw [← hMoveA, ← hMoveB, hChained.distinct m n hSame]

/-- No bucket has a key that has a slot. The new key has none, or it would have been stored there.
-/
theorem unshadowed (h : t.Placed t' k v p move) (hChained : t.Chained) (hNew : t.Insertable k)
    (m : Nat) : t'.slot? (t'.node m).key = none := by
  rw [h.slot?_eq]
  by_cases hm : m = p
  · rw [hm, h.key]
    exact hNew.slotless
  · by_cases hOccupied : t'.Occupied m
    · obtain ⟨n, _, hOld, _⟩ := h.old m hm hOccupied
      rw [hOld]
      exact hChained.unshadowed n
    · rw [Occupied, not_not] at hOccupied
      rw [hOccupied]
      rfl

/-- What is left to show of the chains when a key is placed. Main positions stay
as they are. -/
theorem chained (h : t.Placed t' k v p move) (hChained : t.Chained) (hNew : t.Insertable k)
    (hVacant : ∀ n, ¬t'.Occupied n → t'.node n = {})
    (hInside : ∀ a, (t'.node a).next ≠ 0 → ∃ b, t'.Link a b ∧ t'.Occupied b)
    (hJoinless : ∀ a b c, t'.Link a c → t'.Link b c → a = b)
    (hRanked : ∃ rank, t'.Ranking rank)
    (hReached : ∀ n, t'.Occupied n → t'.Reaches (t.home (t'.node n).key) n)
    (hHomes : ∀ n, t'.Occupied n → t'.Occupied (t.home (t'.node n).key) ∧
      t.home (t'.node (t.home (t'.node n).key)).key = t.home (t'.node n).key) :
    t'.Chained where
  buckets := h.count ▸ hChained.buckets
  slots := by
    unfold arrayLimit
    rw [h.array]
    exact hChained.slots
  vacant := hVacant
  inside := hInside
  joinless := hJoinless
  ranked := hRanked
  distinct := h.distinct hChained hNew
  reached n hn := by
    rw [h.home_eq]
    exact hReached n hn
  homes n hn := by
    simp only [h.home_eq]
    exact hHomes n hn
  unshadowed := h.unshadowed hChained hNew

/-- Placing a key changes the entry under it and no other. Look-ups go by chains, so chains have to
be well-formed on both sides. -/
theorem held? (h : t.Placed t' k v p move) (hChained : t.Chained)
    (hChained' : t'.Chained) (hNew : t.Insertable k) (l : Key) :
    t'.held? l = if k.same l then v.nonNil? else t.held? l := by
  unfold Table.held?
  rw [lookup_eq, lookup_eq, h.slot?_eq, h.array]
  split
  next i hSlot =>
    have hDiffers : k.same l ≠ true := not_same_of_slot? hNew.slotless hSlot (by simp)
    rw [if_neg hDiffers]
  next =>
    split
    next hSame =>
      rw [← h.key] at hSame
      rw [hChained'.getNode_eq_of_same hSame, h.value]
    next hDiffers =>
      apply Option.ext
      intro w
      rw [hChained'.getNode_nonNil?_eq_some_iff, hChained.getNode_nonNil?_eq_some_iff]
      refine and_congr_right fun hLive => ⟨?_, ?_⟩
      · rintro ⟨m, hSame, hValue⟩
        have hm : m ≠ p := by
          rintro rfl
          exact hDiffers (h.key ▸ hSame)
        obtain ⟨n, _, hKey, hOld⟩ := h.old m hm (Key.ne_vacant_of_same hSame)
        exact ⟨n, hKey ▸ hSame, hOld ▸ hValue⟩
      · rintro ⟨n, hSame, hValue⟩
        obtain ⟨hKey, hKept⟩ := h.kept n (hValue ▸ hLive)
        exact ⟨move n, hKey.symm ▸ hSame, hKept.trans hValue⟩

end Placed

/-! ### A bucket that holds nothing live -/

section Fill

variable {n : Nat} (hChained : t.Chained) (hNew : t.Insertable k) (hHome : t.home k = n)
include hChained hHome

/-- A bucket that is filled keeps its link, and the others are as they were. -/
theorem node_fillNode (v : Value) (m : Nat) :
    (t.fillNode n k v).node m =
      if m = n then { t.node n with key := k, value := v } else t.node m :=
  node_modifyNode (hHome ▸ hChained.home_lt k) _ m

theorem link_fillNode (v : Value) (a b : Nat) : (t.fillNode n k v).Link a b ↔ t.Link a b := by
  simp only [Link, node_fillNode hChained hHome]
  by_cases ha : a = n <;> simp [ha]

include hNew

/-- One bucket more is taken, unless the one that was filled held a dead key. -/
theorem occupied_iff_fillNode (v : Value) (m : Nat) :
    (t.fillNode n k v).Occupied m ↔ m = n ∨ t.Occupied m := by
  simp only [Occupied, node_fillNode hChained hHome]
  by_cases hm : m = n
  · simp [hm, hNew.key]
  · simp [hm]

omit hNew in
/-- A dead bucket that is filled is a placement in which nothing moves. -/
theorem placed_fillNode (hDead : (t.node n).value.isNil = true) (v : Value) :
    t.Placed (t.fillNode n k v) k v n id where
  array := rfl
  count := bucketCount_modifyNode ..
  key := by simp [node_fillNode hChained hHome]
  value := by simp [node_fillNode hChained hHome]
  old m hm _ := ⟨m, rfl, by simp [node_fillNode hChained hHome, hm]⟩
  kept m hLive := by
    have hm : m ≠ n := by
      rintro rfl
      simp [hDead] at hLive
    simp [node_fillNode hChained hHome, hm]

theorem occupied_fillNode (v : Value) : (t.fillNode n k v).occupied =
    if t.Occupied n then t.occupied else t.occupied + 1 :=
  occupied_insert (bucketCount_modifyNode ..) (hHome ▸ hChained.home_lt k)
    (occupied_iff_fillNode hChained hNew hHome v)

/-- A ranking of the chains ranks them still. -/
theorem ranking_fillNode {rank : Nat → Nat} (hRank : t.Ranking rank) (v : Value) :
    (t.fillNode n k v).Ranking rank where
  climbs a b hLink := hRank.climbs a b ((link_fillNode hChained hHome v a b).mp hLink)
  below m := by
    have hOccupied := occupied_fillNode hChained hNew hHome v
    rcases hRank.below m with h | h
    · exact Or.inl h
    · right
      split at hOccupied <;> omega

/-- Each key is on the chain from its main position. The new one is at the start of its own. -/
theorem reached_fillNode (v : Value) (m : Nat) (hm : (t.fillNode n k v).Occupied m) :
    (t.fillNode n k v).Reaches (t.home ((t.fillNode n k v).node m).key) m := by
  rw [node_fillNode hChained hHome]
  by_cases hEq : m = n
  · subst hEq
    rw [if_pos rfl, hHome]
  · rw [if_neg hEq]
    rw [occupied_iff_fillNode hChained hNew hHome] at hm
    have hReach := hChained.reached m (hm.resolve_left hEq)
    exact Relation.ReflTransGen.mono (fun a b => (link_fillNode hChained hHome v a b).mpr) _ _ hReach

/-- The main position of each key is taken by a key of that position. The new key is one itself. -/
theorem homes_fillNode (v : Value) (m : Nat) (hm : (t.fillNode n k v).Occupied m) :
    (t.fillNode n k v).Occupied (t.home ((t.fillNode n k v).node m).key) ∧
      t.home ((t.fillNode n k v).node (t.home ((t.fillNode n k v).node m).key)).key =
        t.home ((t.fillNode n k v).node m).key := by
  have hNode := node_fillNode (k := k) hChained hHome v
  rw [occupied_iff_fillNode hChained hNew hHome] at hm ⊢
  by_cases hEq : m = n
  · subst hEq
    simp [hNode, hHome]
  · rw [hNode m, if_neg hEq]
    obtain ⟨hHeld, hOwn⟩ := hChained.homes m (hm.resolve_left hEq)
    refine ⟨Or.inr hHeld, ?_⟩
    rw [hNode]
    split
    next h => rw [h, hHome]
    next => exact hOwn

/-- A key that is put into a dead bucket of its main position leaves the chains well-formed. The
link of the bucket stays, dead or not. -/
theorem chained_fillNode (hDead : (t.node n).value.isNil = true) (v : Value) :
    (t.fillNode n k v).Chained := by
  have hOccupied := occupied_iff_fillNode hChained hNew hHome v
  have hLink := link_fillNode hChained hHome (k := k) v
  have hNode := node_fillNode hChained hHome (k := k) v
  apply (placed_fillNode hChained hHome hDead v).chained hChained hNew
  · intro m hVacant
    rw [hOccupied, not_or] at hVacant
    rw [hNode, if_neg hVacant.1]
    exact hChained.vacant m hVacant.2
  · intro a hNext
    have hOld : (t.node a).next ≠ 0 := by
      rw [hNode] at hNext
      split at hNext
      next h => exact h ▸ hNext
      next => exact hNext
    obtain ⟨b, hab, hb⟩ := hChained.inside a hOld
    exact ⟨b, (hLink a b).mpr hab, (hOccupied b).mpr (Or.inr hb)⟩
  · intro a b c hac hbc
    exact hChained.joinless a b c ((hLink a c).mp hac) ((hLink b c).mp hbc)
  · obtain ⟨rank, hRank⟩ := hChained.ranked
    exact ⟨rank, ranking_fillNode hChained hNew hHome hRank v⟩
  · exact reached_fillNode hChained hNew hHome v
  · exact homes_fillNode hChained hNew hHome v

end Fill

end TaggedRuntime.Table
