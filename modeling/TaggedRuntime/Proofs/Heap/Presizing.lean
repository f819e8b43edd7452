import TaggedRuntime.Proofs.Heap.Creation
import TaggedRuntime.Proofs.Table.Refusal

/-! Room that was asked for in advance. A bucket is taken by a key that was stored and never given
to another one while it is free, so the buckets taken are no more than the keys that were ever
stored, however these collide, are erased and come back. -/

namespace TaggedRuntime

/-- A key that room was made for: one of so many slots, or one of a list of others. -/
def Key.Foreseen (arraySize : Nat) (others : List Key) (k : Key) : Prop :=
  k.within arraySize = true ∨ ∃ l ∈ others, l.same k = true

namespace Table

/-- Whether an operation writes under a key. The others resize. -/
def Operation.isWrite : Operation → Bool
  | resize _ _ => false
  | resizeArray _ => false
  | _ => true

/-- The tables that writes lead to, each of them under a key with a property. Nothing else is done
to the table: look-ups leave it as it is. -/
inductive Written (allowed : Key → Prop) (made : Table) : Table → Prop where
  | nothing : Written allowed made made
  | write (hBefore : Written allowed made t) (op : Operation) (hWrite : op.isWrite = true)
      (hKey : ∀ w, op.write? t = some w → allowed w.1) : Written allowed made (op.apply t)

variable {made t t' : Table} {k : Key} {v : Value} {others : List Key}

/-! ### Keys of the buckets -/

/-- Every key of a bucket is one of a list, or the same as one. -/
def Covered (t : Table) (others : List Key) : Prop :=
  ∀ n, t.Occupied n → ∃ l ∈ others, l.same (t.node n).key = true

/-- Buckets with keys that differ are as many as their keys, so a key that none of them has finds
one that is left over. This is where the count of foreseen keys is set against the count of buckets.
-/
theorem Covered.occupied_lt (hCovered : t.Covered others) (hChained : t.Chained)
    (hNew : t.Insertable k) (hKey : ∃ l ∈ others, l.same k = true) :
    t.occupied < others.length := by
  let taken := ((Finset.range t.bucketCount).filter t.Occupied).toList
  have hTaken {n : Nat} (hn : n ∈ taken) : t.Occupied n := by
    simpa using (Finset.mem_filter.mp (Finset.mem_toList.mp hn)).2
  have hApart : Key.Apart (taken.map (fun n => (t.node n).key) ++ [k]) := by
    refine List.pairwise_append.mpr ⟨?_, List.pairwise_singleton _ k, ?_⟩
    · rw [List.pairwise_map]
      refine (Finset.nodup_toList _).imp fun hDiffers => ?_
      simpa using mt (hChained.distinct _ _) hDiffers
    · intro l hl m hm
      rw [List.mem_singleton] at hm
      obtain ⟨n, _, rfl⟩ := List.mem_map.mp hl
      exact hm ▸ hNew.absent n
  have hLe := hApart.length_le fun l hl => by
    rcases List.mem_append.mp hl with hOld | hk
    · obtain ⟨n, hn, rfl⟩ := List.mem_map.mp hOld
      exact hCovered n (hTaken hn)
    · exact List.mem_singleton.mp hk ▸ hKey
  rw [List.length_append, List.length_map, Finset.length_toList, List.length_singleton] at hLe
  exact hLe

/-- A key that was put into a bucket is one of those that were expected, so all buckets hold
expected keys. -/
theorem Placed.covered {p : Nat} {move : Nat → Nat} (h : t.Placed t' k v p move)
    (hCovered : t.Covered others) (hKey : ∃ l ∈ others, l.same k = true) : t'.Covered others := by
  intro m hm
  by_cases hPlace : m = p
  · rw [hPlace, h.key]
    exact hKey
  · obtain ⟨n, _, hSame, _⟩ := h.old m hPlace hm
    rw [hSame]
    exact hCovered n (by rwa [Occupied, ← hSame])

theorem SameShape.covered (h : t.SameShape t') (hCovered : t.Covered others) :
    t'.Covered others := by
  intro m hm
  rw [h.key]
  exact hCovered m ((h.occupied_iff m).mp hm)

/-- A new key is put into a bucket that was free or dead, and no other key comes in. A key that was
erased keeps its bucket, which is why its coming back takes no other. -/
theorem newKey_covered (hWell : t.WellFormed) (hCovered : t.Covered others)
    (hKey : ∃ l ∈ others, l.same k = true)
    (hRun : (newKey (fun _ _ => throw .unsettled) k v).run t = .ok () t') :
    t'.Covered others := by
  cases hLast : t.lastFree with
  | none =>
      rw [newKey_of_dummy hLast] at hRun
      cases hRun
  | some bound =>
      have hReal : t.isDummy = false := by simp [isDummy, hLast]
      cases hDead : (t.node (t.home k)).value.isNil with
      | true =>
          rw [newKey_of_dead hDead hReal] at hRun
          cases hRun
          exact (placed_fillNode hWell.toChained rfl hDead v).covered hCovered hKey
      | false =>
          cases hFound : t.vacantBelow bound with
          | none =>
              rw [newKey_of_exhausted hDead hLast hFound] at hRun
              cases hRun
          | some free =>
              obtain ⟨hLt, hVacant, _⟩ := vacantBelow_eq_some hFound
              have hFree := Nat.lt_of_lt_of_le hLt (hWell.bound bound hLast)
              have hShape := sameShape_withLastFree t (some free)
              have hChained := hShape.chained hWell.toChained
              have hHeld : t.Occupied (t.home k) := by
                by_contra hOut
                rw [hWell.vacant _ hOut] at hDead
                cases hDead
              rw [newKey_of_free hDead hLast hFound] at hRun
              cases hRun
              split
              next hOwn =>
                exact (placed_append (k := k) hChained hHeld hFree hVacant v).covered
                  (hShape.covered hCovered) hKey
              next hAway =>
                exact (placed_displace (k := k) hChained hHeld rfl hAway hFree hVacant v).covered
                  (hShape.covered hCovered) hKey

/-! ### Writes -/

/-- A table with parts as they were made, in whose buckets are keys of a list. -/
structure Roomy (made : Table) (others : List Key) (t : Table) : Prop where
  wellFormed : t.WellFormed
  sizes : made.SameSizes t
  covered : t.Covered others

namespace Roomy

/-- The array part has the slots that it was made with. Which keys have one does not change over the
run. -/
theorem slot?_isSome (h : made.Roomy others t) (k : Key) :
    (t.slot? k).isSome = k.within made.arrayLimit := by
  rw [Table.slot?_isSome h.wellFormed.slots, fitsArray_eq_within h.wellFormed.slots,
    h.sizes.arrayLimit]

/-- A key that is written under a list that fits is stored without a rebuild. The keys in the
buckets are among those of the list, and this one is not there yet, so a bucket is left. -/
theorem setKey (h : made.Roomy others t) (hFits : others.length ≤ made.capacity)
    (hKey : k.Foreseen made.arrayLimit others) (v : Value) :
    ∃ t', (Table.setKey 0 k v).run t = .ok () t' ∧ made.Roomy others t' := by
  have hOther (hSlot : t.slot? k = none) : ∃ l ∈ others, l.same k = true := by
    refine hKey.resolve_left fun hWithin => ?_
    rw [← h.slot?_isSome, hSlot] at hWithin
    cases hWithin
  have hReal : k ≠ .vacant := by
    rintro rfl
    obtain ⟨l, _, hSame⟩ := hOther rfl
    rw [Key.same_vacant] at hSame
    cases hSame
  rcases setKeyWith_cases h.wellFormed hReal (fun _ _ => throw .unsettled) v with
    ⟨t', hRun, hSettled⟩ | ⟨hFull, _, hNew, _⟩
  · refine ⟨t', hRun, hSettled.wellFormed, h.sizes.trans hSettled.sizes, ?_⟩
    rw [setKeyWith_run] at hRun
    split at hRun
    next =>
      cases hRun
      exact (sameShape_setSlot t _ v).covered h.covered
    next hSlot =>
      split at hRun
      next n hFind =>
        cases hRun
        have hSame := (h.wellFormed.find?_eq_some_iff k n).mp hFind
        exact (sameShape_setBucketValue (Key.ne_vacant_of_same hSame) v).covered h.covered
      next =>
        split at hRun
        next =>
          cases hRun
          exact h.covered
        next => exact newKey_covered h.wellFormed h.covered (hOther hSlot) hRun
  · have hLess := h.covered.occupied_lt h.wellFormed.toChained hNew (hOther hNew.slotless)
    rw [h.sizes.capacity_eq] at hFull
    omega

theorem setBucketValue (h : made.Roomy others t) {n : Nat} (hHeld : t.Occupied n) (v : Value) :
    made.Roomy others (t.setBucketValue n v) where
  wellFormed := h.wellFormed.overwritten hHeld v
  sizes := h.sizes.trans ⟨rfl, bucketCount_modifyNode .., rfl⟩
  covered := (sameShape_setBucketValue hHeld v).covered h.covered

/-- An operation that is a store under a foreseen key leaves the room there was. -/
theorem apply_of_setKey (h : made.Roomy others t) (hFits : others.length ≤ made.capacity)
    (hKey : k.Foreseen made.arrayLimit others) {op : Operation}
    (hOp : op.change.run t = (Table.setKey 1 k v).run t) : made.Roomy others (op.apply t) := by
  obtain ⟨t', hRun, hRoomy⟩ := h.setKey hFits hKey v
  rwa [Operation.apply, hOp, setKey_of_settled hRun 1]

/-- Each write under a foreseen key leaves the room there was. This is the step of the run. -/
theorem apply (h : made.Roomy others t) (hFits : others.length ≤ made.capacity) {op : Operation}
    (hWrite : op.isWrite = true)
    (hKey : ∀ w, op.write? t = some w → w.1.Foreseen made.arrayLimit others) :
    made.Roomy others (op.apply t) := by
  cases op with
  | set x v =>
      cases hValue : Key.ofValue x with
      | ok k =>
          refine h.apply_of_setKey hFits (hKey (k, v) ?_) (k := k) (v := v) ?_
          · simp [Operation.write?, hValue]
          · simp [Operation.change, set_run, hValue]
      | error e =>
          have hSame : (Operation.set x v).apply t = t := by
            simp [Operation.apply, Operation.change, set_run, hValue]
          rwa [hSame]
  | setInt n v => exact h.apply_of_setKey hFits (hKey (.int n, v) rfl) rfl
  | setStr s v => exact h.apply_of_setKey hFits (hKey (.str s, v) rfl) rfl
  | overwriteStr s v =>
      cases hCell : t.overwriteStr? s v with
      | none =>
          have hSame : (Operation.overwriteStr s v).apply t = t := by
            change ((t.overwriteStr? s v).map (·.2)).getD t = t
            rw [hCell]
            rfl
          rwa [hSame]
      | some written =>
          rw [Operation.apply_overwriteStr hCell]
          obtain ⟨n, hFind, rfl⟩ := Option.map_eq_some_iff.mp hCell
          have hSame := (h.wellFormed.find?_eq_some_iff _ n).mp hFind
          exact h.setBucketValue (Key.ne_vacant_of_same hSame) v
  | overwriteBucket n v =>
      change made.Roomy others (if t.Occupied n then t.setBucketValue n v else t)
      split
      next hHeld => exact h.setBucketValue hHeld v
      next => exact h
  | resize arraySize hashSize => cases hWrite
  | resizeArray arraySize => cases hWrite

end Roomy

/-- A run of writes under foreseen keys leaves the parts as they were made. -/
theorem Written.roomy {arraySize : Nat} (hSize : made.arrayLimit = arraySize)
    (hMade : made.Roomy others made) (hFits : others.length ≤ made.capacity)
    (hWritten : made.Written (Key.Foreseen arraySize others) t) : made.Roomy others t := by
  subst hSize
  induction hWritten with
  | nothing => exact hMade
  | write _ op hWrite hKey ih => exact ih.apply hFits hWrite hKey

theorem roomy_cleared {arraySize hashSize : Nat} (hArray : arraySize ≤ twoPow Limits.arrayBits)
    (hHash : ceilLog2 hashSize ≤ Limits.hashBits) (others : List Key) :
    (cleared {} arraySize hashSize).Roomy others (cleared {} arraySize hashSize) where
  wellFormed := wellFormed_cleared hArray hHash
  sizes := ⟨rfl, rfl, rfl⟩
  covered n hn := absurd (by rw [node_cleared]) hn

/-- A store that makes a rebuild found every bucket taken, or none that can be. Only the dummy has
none that can be. -/
theorem full_of_puts (hWell : t.WellFormed) (hKey : k ≠ .vacant) {n : Nat} {r : Outcome}
    (hPuts : Puts t k v n r) (hRebuilds : 0 < n) :
    t.isDummy = true ∨ ∀ m < t.bucketCount, t.Occupied m := by
  obtain ⟨n', r', hCourse⟩ := course_of_wellFormed hWell hKey v
  obtain ⟨rfl, rfl⟩ := (hCourse.puts_iff n r).mp hPuts
  have hTaken : t.capacity ≤ t.occupied := by
    cases hCourse with
    | settled => cases hRebuilds
    | refused hTaken => exact hTaken
    | rebuilt hTaken => exact hTaken
  refine or_iff_not_imp_left.mpr fun hReal m hm => ?_
  rw [capacity, if_neg hReal] at hTaken
  by_contra hVacant
  exact Nat.not_lt.mpr hTaken (occupied_lt_iff.mpr ⟨m, hm, hVacant⟩)

end Table

/-! ### A table that was made -/

/-- A table that was made is an empty one with parts of the sizes that were asked for. The metatable
is none, and no key was ever in it. -/
theorem createTable_made {arrayHint recordHint : Int64} {loc : Location} {config : Config}
    {j j' : Journal Heap} {r : Handle}
    (hRun : createTable (σ := Heap) arrayHint recordHint loc config j = .ok r j') :
    j'.host.object? r =
        some (.table (Table.cleared {} arrayHint.toInt.toNat recordHint.toInt.toNat)) ∧
      arrayHint.toInt.toNat ≤ twoPow Limits.arrayBits ∧
      ceilLog2 recordHint.toInt.toNat ≤ Limits.hashBits := by
  have hRaise (kind : ErrorKind) (i : Journal Heap) :
      (Run.raise kind loc : Run Heap Handle) config i ≠ .ok r j' := by
    rw [Run.raise_run]
    exact fun hEq => nomatch hEq
  rw [createTable_run arrayHint recordHint loc config j rfl, Table.resize_new] at hRun
  split_ifs at hRun with hPast hFull hHints hSizes
  · exact absurd hRun (hRaise _ _)
  · exact absurd hRun (hRaise _ _)
  · exact absurd hRun (hRaise _ _)
  · obtain ⟨hArray, hHash⟩ := not_or.mp hSizes
    cases hRun
    refine ⟨?_, Nat.not_lt.mp hArray, Nat.not_lt.mp hHash⟩
    rw [Heap.withObject_withNew (Nat.lt_of_not_le hFull),
      Heap.object?_withNew (Nat.lt_of_not_le hFull), if_pos rfl]
  · obtain ⟨hNoArray, hNoHash⟩ := not_or.mp hHints
    cases hRun
    rw [Nat.eq_zero_of_not_pos hNoArray, Nat.eq_zero_of_not_pos hNoHash]
    refine ⟨?_, Nat.zero_le _, Nat.zero_le _⟩
    rw [Heap.object?_withNew (Nat.lt_of_not_le hFull), if_pos rfl]
    rfl

/-- Room that was asked for is there. A table that was made for so many slots and so many other keys
keeps its sizes through every run of writes, overwrites and erasures under them, and at no point of
the run would a store under one of them make a rebuild: it is carried out at once. In general a
store makes a rebuild only where every bucket holds a key, live or dead, or where no bucket is
there to be filled. -/
theorem presizing_honoured :
    (∀ (config : Config) (arrayHint recordHint : Int64) (loc : Location) (j j' : Journal Heap)
      (r : Handle), createTable (σ := Heap) arrayHint recordHint loc config j = .ok r j' →
      ∃ made : Table, j'.host.object? r = some (.table made) ∧
        made.Presized arrayHint.toInt recordHint.toInt ∧
        ∀ (others : List Key), others.length ≤ recordHint.toInt.toNat →
        ∀ t, made.Written (Key.Foreseen arrayHint.toInt.toNat others) t →
          t.arrayLimit = made.arrayLimit ∧ t.bucketCount = made.bucketCount ∧
          ∀ k v, k.Foreseen arrayHint.toInt.toNat others →
            ∃ t', (Table.setKey 1 k v).run t = .ok () t' ∧
              ∀ n result, Table.Puts t k v n result ↔ n = 0 ∧ result = .ok () t') ∧
    ∀ t : Table, t.Reachable → ∀ k v n result, k ≠ .vacant → Table.Puts t k v n result → 0 < n →
      t.isDummy = true ∨ ∀ m < t.bucketCount, t.Occupied m := by
  refine ⟨fun config arrayHint recordHint loc j j' r hRun => ?_,
    fun t hReachable k v n result hKey hPuts => Table.full_of_puts hReachable.wellFormed hKey hPuts⟩
  obtain ⟨hMade, hArray, hHash⟩ := createTable_made hRun
  refine ⟨_, hMade, Table.presized_cleared hArray, fun others hFew t hWritten => ?_⟩
  have hFits := Nat.le_trans hFew
    (Table.hashSize_le_capacity_cleared {} arrayHint.toInt.toNat recordHint.toInt.toNat)
  have hLimit := Table.arrayLimit_cleared {} arrayHint.toInt.toNat recordHint.toInt.toNat
  have hRoomy := hWritten.roomy hLimit (Table.roomy_cleared hArray hHash others) hFits
  refine ⟨hRoomy.sizes.arrayLimit, hRoomy.sizes.bucketCount, fun k v hKey => ?_⟩
  obtain ⟨t', hStored, _⟩ := hRoomy.setKey hFits (by rwa [hLimit]) v
  exact ⟨t', Table.setKey_of_settled hStored 1, fun n result => Table.puts_of_settled hStored⟩

private def foreseen : List Key := [.str ⟨0, 0, [102]⟩, .bool true]

/-- A table made for one slot and two other keys, one of which is erased and comes back after the
other, and a table in which both buckets are taken. -/
theorem presizing_honoured_reused :
    (∃ r j', ∃ made t : Table,
      createTable (σ := Heap) 1 2 {} {} ⟨{}, [], []⟩ = .ok r j' ∧
      j'.host.object? r = some (.table made) ∧ made.Written (Key.Foreseen 1 foreseen) t ∧
      t.arrayLimit = 1 ∧ t.bucketCount = 2) ∧
    ∃ t : Table, t.Reachable ∧ (∃ result, Table.Puts t (.bool true) (.int 3) 1 result) ∧
      (t.isDummy = true ∨ ∀ m < t.bucketCount, t.Occupied m) := by
  constructor
  · obtain ⟨made, hMade, hPresized, hRoom⟩ := presizing_honoured.1 {} 1 2 {} ⟨{}, [], []⟩ _ _ rfl
    have hText : Key.Foreseen 1 foreseen (.str ⟨0, 0, [102]⟩) :=
      Or.inr ⟨_, List.mem_cons_self, by decide⟩
    have hBool : Key.Foreseen 1 foreseen (.bool true) :=
      Or.inr ⟨_, List.mem_cons_of_mem _ List.mem_cons_self, by decide⟩
    have hNothing : made.Written (Key.Foreseen 1 foreseen) made := .nothing
    have hWritten := hNothing
      |>.write (.setStr ⟨0, 0, [102]⟩ (.int 1)) rfl (by rintro w ⟨⟩; exact hText)
      |>.write (.setStr ⟨0, 0, [102]⟩ .nil) rfl (by rintro w ⟨⟩; exact hText)
      |>.write (.set (.bool true) (.int 2)) rfl (by rintro w ⟨⟩; exact hBool)
      |>.write (.setInt 1 (.int 3)) rfl (by rintro w ⟨⟩; exact Or.inl (by decide))
      |>.write (.setStr ⟨0, 0, [102]⟩ (.int 4)) rfl (by rintro w ⟨⟩; exact hText)
    obtain ⟨hArray, hBuckets, _⟩ := hRoom foreseen (by decide) _ hWritten
    exact ⟨_, _, made, _, rfl, hMade, hWritten,
      hArray.trans (Int.ofNat.inj hPresized.array), hBuckets.trans hPresized.buckets.eq_twoPow⟩
  · have hReachable := Table.Reachable.new none
      |>.step (.resize 0 2)
      |>.step (.setStr ⟨0, 0, [102]⟩ (.int 1))
      |>.step (.setStr ⟨1, 0, [103]⟩ (.int 2))
    obtain ⟨n, result, hCourse⟩ :=
      Table.course_of_wellFormed hReachable.wellFormed (k := .bool true) (by decide) (.int 3)
    have hPuts := (hCourse.puts_iff n result).mpr ⟨rfl, rfl⟩
    have hOne : n = 1 := by
      cases hCourse with
      | settled hSettled => cases hSettled
      | refused => rfl
      | rebuilt => rfl
    subst hOne
    exact ⟨_, hReachable, ⟨result, hPuts⟩,
      presizing_honoured.2 _ hReachable _ _ _ _ (by decide) hPuts Nat.one_pos⟩

end TaggedRuntime
