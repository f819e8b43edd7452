import TaggedRuntime.Proofs.Table.Recursion
import TaggedRuntime.Proofs.Table.Resizing

/-! The sizes that a rebuild gives. The candidates for the array part are tallied by slice, but what
is tallied are the integers that hold a value, each once, so the part that is chosen is the largest
one of which more than half is in use. The hash part has a bucket for every other key. -/

namespace TaggedRuntime.Table

variable {t t' : Table} {k : Key} {v : Value} {keys : List Key} {size n : Nat}

/-! ### What is tallied -/

/-- Every key of a slot is a candidate for the array part: itself. -/
theorem filterMap_slotKeys (hSlots : t.arrayLimit ≤ twoPow Limits.arrayBits) :
    (t.liveIndices.map fun i => Key.int (Int64.ofNat i)).filterMap Key.arrayCandidate? =
      t.liveIndices := by
  have hSlot : ∀ i ∈ t.liveIndices,
      (Key.arrayCandidate? ∘ fun i => Key.int (Int64.ofNat i)) i = some i := by
    intro i hi
    have hLast := t.liveIndices_le i hi
    exact (arrayCandidate?_eq_some_iff _ i).mpr ⟨rfl, t.liveIndices_pos i hi, by omega⟩
  rw [List.filterMap_map, List.filterMap_congr hSlot, List.filterMap_some]

/-- The array part is chosen for the live keys and the new one. -/
theorem sizesWith_fst_eq (hSlots : t.arrayLimit ≤ twoPow Limits.arrayBits) (k : Key) :
    (t.sizesWith k).1 =
      (bestArraySize ((t.liveKeys ++ [k]).filterMap Key.arrayCandidate?)).size := by
  rw [liveKeys_eq, List.append_assoc, List.filterMap_append, filterMap_slotKeys hSlots]
  rfl

/-- Keys that are told apart are no candidate twice. -/
theorem nodup_candidates (hApart : Key.Apart keys) :
    (keys.filterMap Key.arrayCandidate?).Nodup := by
  refine List.Pairwise.filterMap _ (fun k l hDiffers c hc d hd hEq => ?_) hApart
  have hk := ((arrayCandidate?_eq_some_iff k c).mp hc).1
  have hl := ((arrayCandidate?_eq_some_iff l d).mp hd).1
  rw [hk, hl, hEq] at hDiffers
  simp [Key.same] at hDiffers

/-- How many of the integers from one up to a size are keys that hold a value, or are the new
key. -/
def inUse (t : Table) (k : Key) (size : Nat) : Nat :=
  (List.range' 1 size).countP fun i =>
    !(t.getInt (Int64.ofNat i)).isNil || k.same (.int (Int64.ofNat i))

/-- An integer is one of the live keys exactly if a look-up finds a value under it. -/
theorem int_mem_liveKeys_iff (hChained : t.Chained) (n : Int64) :
    .int n ∈ t.liveKeys ↔ (t.getInt n).isNil = false := by
  have hHeld : (t.held? (.int n)).isSome = true ↔ (t.getInt n).isNil = false := by
    change (t.getInt n).nonNil?.isSome = true ↔ _
    unfold Value.nonNil?
    cases (t.getInt n).isNil <;> simp
  rw [← hHeld, ← mem_liveKeys_iff hChained]
  simp

/-- The candidates up to a size are the integers up to it that are in use. The keys in question are
told apart, so no integer is counted twice. -/
theorem countP_candidates_eq_inUse (hChained : t.Chained) (hNew : t.Insertable k)
    (hSize : size ≤ twoPow Limits.arrayBits) :
    ((t.liveKeys ++ [k]).filterMap Key.arrayCandidate?).countP (· ≤ size) = t.inUse k size := by
  have hPerm : (((t.liveKeys ++ [k]).filterMap Key.arrayCandidate?).filter (· ≤ size)).Perm
      ((List.range' 1 size).filter fun i =>
        !(t.getInt (Int64.ofNat i)).isNil || k.same (.int (Int64.ofNat i))) := by
    rw [List.perm_ext_iff_of_nodup
      ((nodup_candidates (hNew.apart_liveKeys hChained)).filter _) (List.Nodup.filter _ List.nodup_range')]
    intro i
    simp only [List.mem_filter, List.mem_filterMap, arrayCandidate?_eq_some_iff, List.mem_append,
      List.mem_singleton, List.mem_range'_1, Bool.or_eq_true, Bool.not_eq_true', Key.same_int_iff,
      decide_eq_true_eq, ← int_mem_liveKeys_iff hChained]
    constructor
    · rintro ⟨⟨l, hl, rfl, hFirst, _⟩, hLast⟩
      exact ⟨by omega, hl.imp_right Eq.symm⟩
    · rintro ⟨hIn, hUsed⟩
      exact ⟨⟨_, hUsed.imp_right Eq.symm, rfl, hIn.1, by omega⟩, by omega⟩
  rw [inUse, List.countP_eq_length_filter, List.countP_eq_length_filter, hPerm.length_eq]

/-! ### The choice -/

/-- The largest power of two that an array part may have and of which more than half is in use;
zero if there is none. -/
structure LargestFilled (inUse : Nat → Nat) (size : Nat) : Prop where
  filled : size = 0 ∨ ∃ bits ≤ Limits.arrayBits, size = twoPow bits ∧ size < 2 * inUse size
  largest : ∀ bits ≤ Limits.arrayBits, twoPow bits < 2 * inUse (twoPow bits) → twoPow bits ≤ size

/-- There is one largest size that is filled enough, so both descriptions give the same. -/
theorem LargestFilled.le {inUse : Nat → Nat} {other : Nat} (h : LargestFilled inUse size)
    (hOther : LargestFilled inUse other) : size ≤ other := by
  rcases h.filled with rfl | ⟨bits, hBits, rfl, hMore⟩
  · exact Nat.zero_le other
  · exact hOther.largest bits hBits hMore

/-- No size is passed over by the walk over the slices, also where it ends early. It ends early only
where no larger size could be more than half in use. -/
theorem largestFilled_sizesWith (hChained : t.Chained) (hNew : t.Insertable k) :
    LargestFilled (t.inUse k) (t.sizesWith k).1 := by
  have hCount {bits : Nat} (hBits : bits ≤ Limits.arrayBits) :=
    countP_candidates_eq_inUse hChained hNew (twoPow_le_twoPow hBits)
  rw [sizesWith_fst_eq hChained.slots]
  constructor
  · rcases half_lt_bestArraySize ((t.liveKeys ++ [k]).filterMap Key.arrayCandidate?) with
      hNone | hMore
    · exact Or.inl hNone
    · rcases measures_bestArraySize ((t.liveKeys ++ [k]).filterMap Key.arrayCandidate?) with
        ⟨hNone, _⟩ | ⟨bits, hBits, hSize, hUsed⟩
      · exact Or.inl hNone
      · have hWithin : bits ≤ Limits.arrayBits := by omega
        simp only [ceilLog2_le_iff] at hUsed
        rw [hCount hWithin] at hUsed
        rw [hSize, hUsed] at hMore
        exact Or.inr ⟨bits, hWithin, hSize, by rw [hSize]; omega⟩
  · intro bits hBits hMore
    apply twoPow_le_bestArraySize hBits
    rw [hCount hBits]
    omega

/-! ### What a rebuild leaves -/

/-- A store that made a rebuild leaves the parts as large as the rebuild made them. The store that
follows the rebuild makes no other one. -/
theorem Course.rebuilt_sizes (hWell : t.WellFormed) (hKey : k ≠ .vacant)
    (hCourse : Course t k v n (.ok () t')) (hRebuilds : 0 < n) :
    t.Insertable k ∧ (t.emptied k).SameSizes t' := by
  cases hCourse with
  | settled => cases hRebuilds
  | rebuilt _ hFull hWithin _ hRebuild hAgain =>
      obtain ⟨rfl, hExhausted, hNew, _⟩ := exhausted_of_full hWell hKey hFull
      obtain ⟨t₂, hGrown, hSame, hRoom, hSizes⟩ :=
        rehash_grown (stores_setKey 0) hExhausted ((ceilLog2_le_iff _ _).mpr hWithin)
      rw [hRebuild] at hGrown
      cases hGrown
      obtain ⟨t₃, hStored, hSettled⟩ := setKey_settled hSame.wellFormed hKey hRoom 0 v
      rw [hAgain] at hStored
      cases hStored
      exact ⟨hNew, hSizes.trans hSettled.sizes⟩

/-- A store that made a rebuild and succeeded leaves parts of the best sizes: the array part is the
largest one of which more than half is in use, the new key counted, and the hash part the smallest
one with a bucket for every live key that has no slot. -/
theorem rebuilt_sizes_optimal (hReachable : t.Reachable) (hKey : k ≠ .vacant)
    (hPuts : Puts t k v n (.ok () t')) (hRebuilds : 0 < n) :
    (∀ bound, (setKey (bound + 1) k v).run t = .ok () t') ∧
    LargestFilled (t.inUse k) t'.arrayLimit ∧
    (Key.Apart (t.liveKeys ++ [k]) ∧
      ∀ l, (∃ m ∈ t.liveKeys, m.same l = true) ↔ (t.held? l).isSome = true) ∧
    LeastPower ((t.liveKeys ++ [k]).countP fun l => !l.within t'.arrayLimit) t'.bucketCount ∧
    (t'.isDummy = true ↔ ((t.liveKeys ++ [k]).countP fun l => !l.within t'.arrayLimit) = 0) := by
  have hWell := hReachable.wellFormed
  have hChained := hWell.toChained
  obtain ⟨m, r, hCourse⟩ := course_of_wellFormed hWell hKey v
  obtain ⟨rfl, rfl⟩ := (hCourse.puts_iff n (.ok () t')).mp hPuts
  obtain ⟨hNew, hSizes⟩ := hCourse.rebuilt_sizes hWell hKey hRebuilds
  have hArray : t'.arrayLimit = (t.sizesWith k).1 :=
    hSizes.arrayLimit.trans (arrayLimit_cleared ..)
  have hDemand : (t.sizesWith k).2 =
      (t.liveKeys ++ [k]).countP fun l => !l.within (t.sizesWith k).1 := by
    simp only [← fitsArray_eq_within (t.sizesWith_fst_le k)]
    exact sizesWith_demand hChained.slots k
  rw [hArray, ← hDemand]
  refine ⟨hCourse.setKey_run, largestFilled_sizesWith hChained hNew,
    ⟨hNew.apart_liveKeys hChained, mem_liveKeys_iff hChained⟩, ?_, ?_⟩
  · rw [hSizes.bucketCount, emptied, bucketCount_cleared]
    exact leastPower_ceilLog2 _
  · rw [hSizes.dummy]
    simp [isDummy, emptied, cleared]

/-- Three integers leave their buckets for slots, and a fourth one and a string stay. -/
theorem rebuilt_sizes_optimal_moved : ∃ t t' : Table, t.Reachable ∧ t.arrayLimit = 0 ∧
    t.bucketCount = 4 ∧ Puts t (.int 6) (.bool true) 1 (.ok () t') ∧
    LargestFilled (t.inUse (.int 6)) t'.arrayLimit ∧ t'.arrayLimit = 4 ∧
    LeastPower 2 t'.bucketCount := by
  have hReachable := Reachable.new none
    |>.step (.resize 0 4)
    |>.step (.setInt 1 (.int 10))
    |>.step (.setInt 2 (.int 20))
    |>.step (.setInt 4 (.int 40))
    |>.step (.setStr ⟨0, 0, [102]⟩ (.int 50))
  obtain ⟨n, r, hCourse⟩ := course_of_wellFormed hReachable.wellFormed (k := .int 6) (by decide)
    (.bool true)
  obtain ⟨t', rfl, hArray⟩ : ∃ t', r = .ok () t' ∧ t'.arrayLimit = 4 :=
    ⟨_, (hCourse.setKey_run 0).symm.trans rfl, by decide⟩
  have hOne : n = 1 := by
    cases hCourse with
    | settled hSettled => cases hSettled
    | rebuilt => rfl
  subst hOne
  have hPuts := (hCourse.puts_iff _ _).mpr ⟨rfl, rfl⟩
  obtain ⟨_, hLargest, _, hLeast, _⟩ :=
    rebuilt_sizes_optimal hReachable (by decide) hPuts Nat.one_pos
  rw [hArray] at hLeast
  exact ⟨_, t', hReachable, by decide, by decide, hPuts, hLargest, hArray, hLeast⟩

end TaggedRuntime.Table
