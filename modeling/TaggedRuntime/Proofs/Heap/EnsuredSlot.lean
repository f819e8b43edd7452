import TaggedRuntime.Proofs.Heap.Growth
import TaggedRuntime.Proofs.Table.Resizing

/-! Making an array slot exist, by cases on its index: a slot that is there already, an index that
no array part reaches under the settings, and a slot for which the array part grows. -/

namespace TaggedRuntime

open Table

/-- A table in which the slot of an index was made to exist. Its array part is as small as it can
be, its hash part as large as it was, and all entries are where they are sought. -/
structure EnsuredSlot (t t' : Table) (i : Int64) : Prop where
  arrayLimit : LeastPower i.toInt.toNat t'.arrayLimit
  bucketCount : t'.bucketCount = t.bucketCount
  reads : t.SameReads t'
  migrated : ∀ n (k : Int64), (t'.node n).key = .int k → ¬(1 ≤ k.toInt ∧ k.toInt ≤ t'.arrayLimit)
  stores : ∀ rebuilds v, (setKey rebuilds (.int i) v).run t' =
    .ok () { t' with array := t'.array.setIfInBounds (i.toInt.toNat - 1) v }

variable {t : Table} {j : Journal Heap} {r : Handle} {i : Int64} {config : Config}

/-- An array part that grows for an index makes its slot exist and keeps everything else. The size
is the next power of two, and a table can have it. -/
theorem ensuredSlot_of_resized (hWell : t.WellFormed) (hFirst : 1 ≤ i.toInt)
    (hPast : t.arrayLimit < i.toInt) (hLast : i.toInt ≤ twoPow Limits.arrayBits) :
    ∃ t', (resizeArray (nextPowerOfTwo i.toInt.toNat)).run t = .ok () t' ∧ EnsuredSlot t t' i := by
  have hPower : LeastPower i.toInt.toNat (nextPowerOfTwo i.toInt.toNat) := leastPower_ceilLog2 _
  have hReaches := hPower.bound
  have hSize := hPower.least Limits.arrayBits (by omega)
  obtain ⟨t', hRun, hLimit, hSame, hBuckets, _⟩ :=
    resizeArray_grown hWell (by omega) hSize
  have hChained := hSame.wellFormed.toChained
  have hSlot : t'.slot? (.int i) = some (i.toInt.toNat - 1) :=
    (arrayIndex?_eq_some_iff hChained.slots i _).mpr (by omega)
  exact ⟨t', hRun, hLimit ▸ hPower, hBuckets, hSame.sameReads,
    fun n k hKey => hChained.not_in_array hKey, setKey_of_slot hSlot⟩

/-- The slot of an index that an array part has is there already. -/
theorem ensureArraySlot_of_slot (hTable : j.host.object? r = some (.table t)) (loc : Location)
    (hFirst : 1 ≤ i.toInt) (hLast : i.toInt ≤ t.arrayLimit) :
    (ensureArraySlot r i loc : Run Heap Unit) config j = .ok () j := by
  have hPosition := toNat_pred hFirst
  rw [ensureArraySlot_run hTable, if_neg (by omega)]

/-- An index that no array part reaches is refused. The index is below one, or past both the array
part and the bound of the settings. -/
theorem ensureArraySlot_of_unreachable (config : Config)
    (hTable : j.host.object? r = some (.table t))
    (hSlots : t.arrayLimit ≤ twoPow Limits.arrayBits) (loc : Location)
    (hBits : config.maxArrayBits ≤ Limits.arrayBits)
    (hOut : i.toInt < 1 ∨ t.arrayLimit < i.toInt ∧ twoPow config.maxArrayBits < i.toInt) :
    (ensureArraySlot r i loc : Run Heap Unit) config j =
      (Run.raise .invalidArrayIndex loc : Run Heap Unit) config j := by
  have hMax : config.maxArraySize ≤ twoPow Limits.arrayBits := twoPow_le_twoPow hBits
  have hBound : twoPow Limits.arrayBits = 2 ^ 31 := rfl
  have hPast : t.arrayLimit ≤ (i.toUInt64 - 1).toNat ∧
      config.maxArraySize ≤ (i.toUInt64 - 1).toNat := by
    unfold Config.maxArraySize at hMax ⊢
    by_cases hFirst : 1 ≤ i.toInt
    · have hPosition := toNat_pred hFirst
      omega
    · have hPosition := le_toNat_pred (Int.not_le.mp hFirst)
      omega
  rw [ensureArraySlot_run hTable, if_pos hPast.1, growArray_run hTable hPast.1, if_pos hPast.2]

/-- For an index within the bound of the settings the array part grows. The growth is reported with
the size from before and the one that was asked for. -/
theorem ensureArraySlot_of_resized (config : Config)
    (hTable : j.host.object? r = some (.table t)) (loc : Location) (hFirst : 1 ≤ i.toInt)
    (hPast : t.arrayLimit < i.toInt) (hLast : i.toInt ≤ twoPow config.maxArrayBits) {t' : Table}
    (hResize : (resizeArray (nextPowerOfTwo i.toInt.toNat)).run t = .ok () t') :
    (ensureArraySlot r i loc : Run Heap Unit) config j =
      .ok () (Run.reported config (.arrayGrown t.arrayLimit (nextPowerOfTwo i.toInt.toNat) loc)
        { j with host := j.host.withObject r (.table t') }) := by
  have hPosition := toNat_pred hFirst
  have hIndex : (i.toUInt64 - 1).toNat + 1 = i.toInt.toNat := by omega
  have hShort : t.arrayLimit ≤ (i.toUInt64 - 1).toNat := by omega
  have hNotPast : ¬config.maxArraySize ≤ (i.toUInt64 - 1).toNat := by
    unfold Config.maxArraySize
    omega
  rw [ensureArraySlot_run hTable, if_pos hShort, growArray_run hTable hShort, if_neg hNotPast,
    hIndex, hResize]

/-- Making a slot exist has one of three outcomes. A slot that is there already is left as it is;
an index below one or past the bound of the settings is refused, and nothing changes; and otherwise
the array part grows to the least power of two that has the slot, the hash part stays as large as
it was, and a store to the slot does not rebuild the table. Memory does not run out. -/
theorem ensureArraySlot_exact (hTable : j.host.object? r = some (.table t)) (hReachable : t.Reachable)
    (lookup : String → Option String) (hConfig : config = .ofLookup lookup) (i : Int64)
    (loc : Location) :
    (1 ≤ i.toInt → i.toInt ≤ t.arrayLimit →
      (ensureArraySlot r i loc : Run Heap Unit) config j = .ok () j) ∧
    (i.toInt < 1 ∨ t.arrayLimit < i.toInt ∧ twoPow config.maxArrayBits < i.toInt →
      ∃ j', (ensureArraySlot r i loc : Run Heap Unit) config j =
        .error (.raised (.located .invalidArrayIndex loc)) j' ∧ j'.host = j.host) ∧
    (t.arrayLimit < i.toInt → i.toInt ≤ twoPow config.maxArrayBits →
      ∃ t' j', (ensureArraySlot r i loc : Run Heap Unit) config j = .ok () j' ∧
        j'.host = j.host.withObject r (.table t') ∧ EnsuredSlot t t' i) ∧
    ∀ e j', (ensureArraySlot r i loc : Run Heap Unit) config j = .error (.raised e) j' →
      e.isFatal = false := by
  have hWell := hReachable.wellFormed
  have hBits : config.maxArrayBits ≤ Limits.arrayBits := hConfig ▸ Config.maxArrayBits_le lookup
  have hSlot : 1 ≤ i.toInt → i.toInt ≤ t.arrayLimit →
      (ensureArraySlot r i loc : Run Heap Unit) config j = .ok () j :=
    ensureArraySlot_of_slot hTable loc
  have hRefused := ensureArraySlot_of_unreachable (i := i) config hTable hWell.slots loc hBits
  have hGrown (hPast : t.arrayLimit < i.toInt) (hLast : i.toInt ≤ twoPow config.maxArrayBits) :
      ∃ t' j', (ensureArraySlot r i loc : Run Heap Unit) config j = .ok () j' ∧
        j'.host = j.host.withObject r (.table t') ∧ EnsuredSlot t t' i := by
    have hMax : twoPow config.maxArrayBits ≤ twoPow Limits.arrayBits := twoPow_le_twoPow hBits
    obtain ⟨t', hResize, hEnsured⟩ := ensuredSlot_of_resized hWell (by omega) hPast (by omega)
    exact ⟨t', _, ensureArraySlot_of_resized config hTable loc (by omega) hPast hLast hResize,
      Run.host_reported .., hEnsured⟩
  refine ⟨hSlot, fun hOut => ?_, hGrown, fun e j' hRun => ?_⟩
  · rw [hRefused hOut, Run.raise_run]
    exact ⟨_, rfl, Run.host_reported ..⟩
  · by_cases hOut : i.toInt < 1 ∨ t.arrayLimit < i.toInt ∧ twoPow config.maxArrayBits < i.toInt
    · rw [hRefused hOut, Run.raise_run] at hRun
      cases hRun
      unfold RuntimeError.located
      split <;> rfl
    · rw [not_or, not_and, Int.not_lt, Int.not_lt] at hOut
      by_cases hLast : i.toInt ≤ t.arrayLimit
      · rw [hSlot hOut.1 hLast] at hRun
        cases hRun
      · obtain ⟨t', j₁, hDone, _⟩ := hGrown (Int.not_le.mp hLast) (hOut.2 (Int.not_le.mp hLast))
        rw [hDone] at hRun
        cases hRun

private def threeBits (name : String) : Option String :=
  if name = "TVRT_MAX_ARRAY_BITS" then some "3" else none

/-- A slot that is there, an index past the bound, and one whose entry moves to its new slot. -/
theorem ensureArraySlot_exact_moved : ∃ (j : Journal Heap) (t : Table),
    j.host.object? ⟨0⟩ = some (.table t) ∧ t.Reachable ∧ t.inHashPart 5 = true ∧
    (ensureArraySlot ⟨0⟩ 1 {} : Run Heap Unit) (.ofLookup threeBits) j = .ok () j ∧
    (∃ j', (ensureArraySlot ⟨0⟩ 9 {} : Run Heap Unit) (.ofLookup threeBits) j =
      .error (.raised (.located .invalidArrayIndex {})) j' ∧ j'.host = j.host) ∧
    ∃ t' j', (ensureArraySlot ⟨0⟩ 5 {} : Run Heap Unit) (.ofLookup threeBits) j = .ok () j' ∧
      j'.host = j.host.withObject ⟨0⟩ (.table t') ∧ LeastPower 5 t'.arrayLimit ∧
      t'.getInt 5 = .int 50 := by
  have hReachable := Reachable.new none |>.step (.resize 1 1) |>.step (.setInt 5 (.int 50))
  have hBits : (Config.ofLookup threeBits).maxArrayBits = 3 := by decide
  have hExact := ensureArraySlot_exact (j := { host := { objects := #[⟨.white, .table _⟩] } })
    (r := ⟨0⟩) rfl hReachable threeBits rfl
  obtain ⟨hSlot, _⟩ := hExact 1 {}
  obtain ⟨_, hRefused, _⟩ := hExact 9 {}
  obtain ⟨_, _, hGrown, _⟩ := hExact 5 {}
  rw [hBits] at hRefused hGrown
  obtain ⟨t', j', hRun, hHost, hEnsured⟩ := hGrown (by decide) (by decide)
  refine ⟨_, _, rfl, hReachable, by decide, hSlot (by decide) (by decide), hRefused (by decide), t', j',
    hRun, hHost, hEnsured.arrayLimit, ?_⟩
  have hOld : (Value.int 50).nonNil? = some (.int 50) := rfl
  exact ((Value.nonNil?_eq_some_iff _ _).mp ((hEnsured.reads.getInt 5).trans hOld)).1

end TaggedRuntime
