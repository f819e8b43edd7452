import TaggedRuntime.Proofs.Table.Operation

/-! How an array part outgrows its size. When every slot of it is in use, the store
of the next key makes it twice as large. -/

namespace TaggedRuntime.Table

variable {t t' : Table} {v : Value} {bits used : Nat}

/-- All indices of a full array part are live. -/
theorem liveIndices_of_full (hFull : ∀ v ∈ t.array, v.isNil = false) :
    t.liveIndices = List.range' 1 t.arrayLimit := by
  have hLive : ∀ e ∈ t.array.toList.zipIdx 1,
      (if e.1.isNil then none else some e.2) = some e.2 := by
    intro e he
    have hMem : e.1 ∈ t.array := Array.mem_toList_iff.mp (List.fst_mem_of_mem_zipIdx he)
    rw [hFull e.1 hMem]
    rfl
  have hSlots : t.liveIndices = (t.array.toList.zipIdx 1).filterMap (some ∘ Prod.snd) :=
    List.filterMap_congr hLive
  rw [hSlots, List.filterMap_eq_map, List.zipIdx_map_snd, Array.length_toList, arrayLimit]

/-- A new table has no entries to store again. -/
theorem resize_new (arraySize hashSize : Nat) : (resize arraySize hashSize).run {} =
    if twoPow Limits.arrayBits < arraySize ∨ Limits.hashBits < ceilLog2 hashSize then
      .error .outOfMemory {}
    else .ok () (cleared {} arraySize hashSize) := by
  have hDisplaced : displaced {} arraySize = [] := by
    rw [displaced, List.drop_nil]
    rfl
  rw [resize, resizeWith_run, hDisplaced]
  rfl

/-- The array part has a power of two of slots, the first of which are in use, and the hash part
holds nothing. -/
structure Filled (t : Table) (bits used : Nat) : Prop where
  wellFormed : t.WellFormed
  dummy : t.lastFree = none
  arrayLimit : t.arrayLimit = twoPow bits
  live : ∀ i < used, ∀ v, t.array[i]? = some v → v.isNil = false

namespace Filled

theorem cleared (hBits : bits ≤ Limits.arrayBits) :
    (Table.cleared {} (twoPow bits) 0).Filled bits 0 where
  wellFormed := wellFormed_cleared (twoPow_le_twoPow hBits) (Nat.zero_le _)
  dummy := rfl
  arrayLimit := arrayLimit_cleared ..
  live i hi := absurd hi (Nat.not_lt_zero i)

/-- The next slot is put in use. It is there already, so nothing is rebuilt. -/
theorem store (hFilled : t.Filled bits used) (hFree : used < twoPow bits)
    (hLive : v.isNil = false) :
    ∃ t', (setInt (slotKey used) v).run t = .ok () t' ∧ t'.Filled bits (used + 1) := by
  have hSlot : t.slot? (.int (slotKey used)) = some used :=
    arrayIndex?_slotKey hFilled.wellFormed.slots (hFilled.arrayLimit ▸ hFree)
  have hRun : (setInt (slotKey used) v).run t =
      .ok () { t with array := t.array.setIfInBounds used v } := setKey_of_slot hSlot 1 v
  refine ⟨_, hRun, hFilled.wellFormed.slotSet used v, hFilled.dummy, ?_, fun i hi w hw => ?_⟩
  · rw [← hFilled.arrayLimit]
    exact (sameShape_setSlot t used v).array
  · rw [Array.getElem?_setIfInBounds] at hw
    split at hw
    next =>
      split at hw
      next =>
        cases hw
        exact hLive
      next => cases hw
    next hOther => exact hFilled.live i (by omega) w hw

/-! ### The key behind a full array part -/

theorem toInt_slotKey_twoPow (hBits : bits < Limits.arrayBits) :
    (slotKey (twoPow bits)).toInt = twoPow bits + 1 := by
  have hLess : twoPow bits ≤ 2 ^ 31 := twoPow_le_twoPow (n := 31) (Nat.le_of_lt hBits)
  rw [slotKey, Int64.toInt_ofNat_of_lt (by omega)]
  rfl

/-- The key behind a full array part is a candidate for a larger one, as long as there can be a
larger one. -/
theorem candidate_behind (hBits : bits < Limits.arrayBits) :
    (Key.int (slotKey (twoPow bits))).arrayCandidate? = some (twoPow bits + 1) := by
  have hPos := twoPow_pos bits
  have hSucc := twoPow_succ bits
  have hMax : twoPow (bits + 1) ≤ twoPow Limits.arrayBits := twoPow_le_twoPow hBits
  exact (arrayCandidate?_eq_some_iff _ _).mpr ⟨rfl, by omega, by omega⟩

theorem liveNodes_eq (hFilled : t.Filled bits used) : t.liveNodes = [] := by
  rw [liveNodes, hFilled.wellFormed.dummy hFilled.dummy]
  rfl

/-- When all slots are in use, every index is live. -/
theorem liveIndices_eq (hFilled : t.Filled bits (twoPow bits)) :
    t.liveIndices = List.range' 1 (twoPow bits) := by
  rw [← hFilled.arrayLimit]
  apply liveIndices_of_full
  intro v hv
  obtain ⟨i, hSlot⟩ := Array.mem_iff_getElem?.mp hv
  have hi : i < t.arrayLimit := (Array.getElem?_eq_some_iff.mp hSlot).1
  exact hFilled.live i (hFilled.arrayLimit ▸ hi) v hSlot

/-- More than half of the next power of two is in use, the new key included. All slots are in use
and the key behind them is counted too, which is one more than half. -/
theorem le_sizesWith (hFilled : t.Filled bits (twoPow bits)) (hBits : bits < Limits.arrayBits) :
    twoPow (bits + 1) ≤ (t.sizesWith (.int (slotKey (twoPow bits)))).1 := by
  have hPos := twoPow_pos bits
  have hSucc := twoPow_succ bits
  have hAll : (List.range' 1 (twoPow bits)).countP (· ≤ twoPow (bits + 1)) = twoPow bits := by
    rw [List.countP_eq_length.mpr, List.length_range']
    intro i hi
    rw [List.mem_range'_1] at hi
    simp only [decide_eq_true_eq]
    omega
  have hFits : twoPow bits + 1 ≤ twoPow (bits + 1) := by omega
  simp only [sizesWith, hFilled.liveNodes_eq, hFilled.liveIndices_eq]
  apply twoPow_le_bestArraySize (i := bits + 1) hBits
  simp only [List.map_nil, List.nil_append, List.filterMap_cons, candidate_behind hBits,
    List.filterMap_nil, List.countP_append, hAll, List.countP_singleton, hFits, decide_true,
    if_true]
  omega

/-- All keys get a slot. So the hash part is asked to hold nothing. -/
theorem sizesWith_hash (hFilled : t.Filled bits (twoPow bits)) (hBits : bits < Limits.arrayBits) :
    (t.sizesWith (.int (slotKey (twoPow bits)))).2 = 0 := by
  have hPos := twoPow_pos bits
  have hSucc := twoPow_succ bits
  have hSize := hFilled.le_sizesWith hBits
  have hFits : fitsArray (t.sizesWith (.int (slotKey (twoPow bits)))).1
      (.int (slotKey (twoPow bits))) = true := by
    rw [fitsArray, candidate_behind hBits]
    simp only [Option.any_some, decide_eq_true_eq]
    omega
  rw [sizesWith_snd, hFilled.liveNodes_eq, hFilled.liveIndices_eq, List.countP_eq_zero.mpr]
  · simp [hFits]
  · intro i hi
    rw [List.mem_range'_1] at hi
    simp only [decide_eq_true_eq]
    omega

/-- The key has neither a slot nor a bucket, so that its store rebuilds the table. There are no
buckets at all, so none is free. -/
theorem setInt_run (hFilled : t.Filled bits used) (hBits : bits < Limits.arrayBits)
    (hLive : v.isNil = false) : (setInt (slotKey (twoPow bits)) v).run t =
      (do rehash (setKey 0) (.int (slotKey (twoPow bits)))
          setKey 0 (.int (slotKey (twoPow bits))) v : Store Unit).run t := by
  have hWell := hFilled.wellFormed
  have hSlot : t.slot? (.int (slotKey (twoPow bits))) = none := by
    cases hIndex : t.slot? (.int (slotKey (twoPow bits))) with
    | none => rfl
    | some i =>
        have hIn := (arrayIndex?_eq_some_iff hWell.slots _ i).mp hIndex
        have hKey := toInt_slotKey_twoPow hBits
        have hLimit := hFilled.arrayLimit
        omega
  have hFind : t.find? (.int (slotKey (twoPow bits))) = none := by
    have hNode (n : Nat) : t.node n = {} := by
      rw [node_eq_getD, hWell.dummy hFilled.dummy]
      cases n <;> rfl
    rw [hWell.find?_eq_none_iff]
    intro n
    rw [hNode]
    rfl
  change (setKeyWith (fun k v => do rehash (setKey 0) k; setKey 0 k v)
    (.int (slotKey (twoPow bits))) v).run t = _
  rw [setKeyWith_run, hSlot, hFind]
  simp only [hLive, Bool.false_eq_true, if_false]
  rw [newKey_of_dummy hFilled.dummy, exhausted_of_dummy hFilled.dummy]

/-- When all slots are in use, the store of the next key makes the array part twice as large.
Nothing compares the new size with the settings on the way. -/
theorem doubled (hFilled : t.Filled bits (twoPow bits)) (hBits : bits < Limits.arrayBits)
    (hLive : v.isNil = false) : ∃ t', (setInt (slotKey (twoPow bits)) v).run t = .ok () t' ∧
      twoPow (bits + 1) ≤ t'.arrayLimit := by
  have hHash : ceilLog2 (t.sizesWith (.int (slotKey (twoPow bits)))).2 ≤ Limits.hashBits := by
    rw [hFilled.sizesWith_hash hBits]
    decide
  obtain ⟨t₁, hGrown, hKept, hRoom, hSizes⟩ :=
    rehash_grown (stores_setKey 0) hFilled.wellFormed hHash
  obtain ⟨t', hStored, hSettled⟩ := setKey_settled hKept.wellFormed (by simp) hRoom 0 v
  refine ⟨t', ?_, ?_⟩
  · rw [hFilled.setInt_run hBits hLive, growth_run, hGrown]
    exact hStored
  · rw [hSettled.sizes.arrayLimit, hSizes.arrayLimit, emptied, arrayLimit_cleared]
    exact hFilled.le_sizesWith hBits

end Filled

end TaggedRuntime.Table
