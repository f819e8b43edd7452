import TaggedRuntime.Proofs.Heap.Growth
import TaggedRuntime.Proofs.Table.History

/-! How many entries a table has. Each key that holds a value is the key of one
live slot or of one live bucket and of no other, so the live slots and buckets
together are as many as the keys whose last write was not a nil. -/

namespace TaggedRuntime

namespace Key

/-- Keys of which no two are the same. -/
abbrev Apart (keys : List Key) : Prop := keys.Pairwise fun k l => k.same l = false

/-- Keys that are told apart are not more than keys that stand for all of them. Two of them cannot
stand for the same other key, so the induction takes one off on both sides. -/
theorem Apart.length_le {keys others : List Key} (hApart : Apart keys)
    (hCovered : ∀ k ∈ keys, ∃ l ∈ others, l.same k = true) : keys.length ≤ others.length := by
  induction keys generalizing others with
  | nil => exact Nat.zero_le _
  | cons k rest ih =>
      obtain ⟨hDiffers, hRest⟩ := List.pairwise_cons.mp hApart
      obtain ⟨l, hMem, hSame⟩ := hCovered k List.mem_cons_self
      obtain ⟨before, behind, rfl⟩ := List.append_of_mem hMem
      have hLeft : rest.length ≤ (before ++ behind).length := ih hRest fun m hm => by
        obtain ⟨o, ho, hSame'⟩ := hCovered m (List.mem_cons_of_mem _ hm)
        -- The key that stands for `k` stands for no other one.
        have hNe : o ≠ l := by
          rintro rfl
          have hTwo := same_trans (same_symm hSame) hSame'
          rw [hDiffers m hm] at hTwo
          cases hTwo
        refine ⟨o, ?_, hSame'⟩
        simpa [hNe] using ho
      simp only [List.length_append, List.length_cons] at hLeft ⊢
      omega

end Key

namespace Table

/-- Runs from a new table, in which a slot may also be made to exist. That is done to
the table as an object of a heap, whatever else the heap holds. -/
inductive GrownRuns : Log → Table → Prop where
  | new : GrownRuns [] {}
  | done (hRuns : GrownRuns log t) (op : Operation) (hRun : op.change.run t = .ok () t') :
      GrownRuns ((op.write? t).toList ++ log) t'
  | failed (hRuns : GrownRuns log t) (op : Operation) (hRun : op.change.run t = .error e t')
      (hMemory : e ≠ .outOfMemory) : GrownRuns log t'
  | ensured (hRuns : GrownRuns log t) (config : Config) (i : Int64) (loc : Location)
      (hTable : j.host.object? r = some (.table t))
      (hRun : (ensureArraySlot r i loc : Run Heap Unit) config j = .ok () j')
      (hTable' : j'.host.object? r = some (.table t')) : GrownRuns log t'
  | refused (hRuns : GrownRuns log t) (config : Config) (i : Int64) (loc : Location)
      (hTable : j.host.object? r = some (.table t))
      (hRun : (ensureArraySlot r i loc : Run Heap Unit) config j = .error (.raised e) j')
      (hMemory : e.isFatal = false) (hTable' : j'.host.object? r = some (.table t')) :
      GrownRuns log t'

variable {t t' : Table} {k l : Key} {v : Value} {log : Log}

/-! ### Keys that were written -/

/-- The keys whose last write was not a nil, each once. -/
def Log.liveKeys : Log → List Key
  | [] => []
  | (k, v) :: older =>
    let others := (liveKeys older).filter fun l => !k.same l
    if v.isNil then others else k :: others

/-- The live keys of a log are told apart: each stands for one entry. A key that is written again is
taken out before it is put in. -/
theorem Log.liveKeys_apart (log : Log) : Key.Apart log.liveKeys := by
  induction log with
  | nil => exact List.Pairwise.nil
  | cons w older ih =>
      have hOthers := ih.filter fun l => !w.1.same l
      simp only [liveKeys]
      split
      next => exact hOthers
      next =>
        refine List.pairwise_cons.mpr ⟨fun l hl => ?_, hOthers⟩
        simpa using (List.mem_filter.mp hl).2

/-- The newest write decides for its own key and for those that are the same. -/
theorem Log.last?_cons (w : Key × Value) (older : Log) (k : Key) :
    last? (w :: older) k = if w.1.same k = true then some w.2 else older.last? k := by
  unfold last?
  rw [List.find?_cons]
  cases w.1.same k <;> rfl

/-- Keys that are left when one is taken out stand for what was not the same as it. -/
theorem mem_filter_not_same_iff (keys : List Key) (k l : Key) :
    (∃ m ∈ keys.filter fun m => !k.same m, m.same l = true) ↔
      k.same l = false ∧ ∃ m ∈ keys, m.same l = true := by
  have hDiffers {m : Key} (hSame : m.same l = true) : k.same m = k.same l := by
    rw [Key.same_comm, Key.same_congr hSame, Key.same_comm]
  constructor
  · rintro ⟨m, hm, hSame⟩
    obtain ⟨hMem, hTest⟩ := List.mem_filter.mp hm
    rw [hDiffers hSame] at hTest
    exact ⟨by simpa using hTest, m, hMem, hSame⟩
  · rintro ⟨hOther, m, hMem, hSame⟩
    refine ⟨m, List.mem_filter.mpr ⟨hMem, ?_⟩, hSame⟩
    rw [hDiffers hSame, hOther]
    rfl

/-- A key is live when the last value that was written under it is not a nil. A key that was erased
and never written again is none of them. -/
theorem Log.mem_liveKeys_iff (log : Log) (k : Key) :
    (∃ l ∈ log.liveKeys, l.same k = true) ↔ ∃ v, log.last? k = some v ∧ v.isNil = false := by
  induction log with
  | nil => simp [liveKeys, last?]
  | cons w older ih =>
      have hOthers := mem_filter_not_same_iff (liveKeys older) w.1 k
      rw [ih] at hOthers
      rw [last?_cons, liveKeys]
      cases hNil : w.2.isNil with
      | true =>
          simp only [if_true, hOthers]
          cases w.1.same k <;> simp [hNil]
      | false =>
          simp only [Bool.false_eq_true, if_false, List.exists_mem_cons_iff, hOthers]
          cases w.1.same k <;> simp [hNil]

/-- A live key is one that was written. -/
theorem Log.ne_vacant_of_mem_liveKeys {log : Log} (hKeys : ∀ w ∈ log, w.1 ≠ .vacant)
    (h : k ∈ log.liveKeys) : k ≠ .vacant := by
  induction log with
  | nil => cases h
  | cons w older ih =>
      have hOlder := ih fun w hw => hKeys w (List.mem_cons_of_mem _ hw)
      rw [liveKeys] at h
      split at h
      next => exact hOlder (List.mem_filter.mp h).1
      next =>
        rcases List.mem_cons.mp h with rfl | hMem
        · exact hKeys w List.mem_cons_self
        · exact hOlder (List.mem_filter.mp hMem).1

/-- No operation writes under the vacant key. A store under a value that is no key writes nothing.
-/
theorem Operation.write?_ne_vacant {op : Operation} {w : Key × Value} (h : op.write? t = some w) :
    w.1 ≠ .vacant := by
  cases op with
  | set k v =>
      rw [write?] at h
      split at h
      next key hKey =>
        cases h
        exact Key.ofValue_ne_vacant hKey
      next => cases h
  | setInt n v =>
      cases h
      simp
  | setStr s v =>
      cases h
      simp
  | overwriteStr s v =>
      rw [write?, Option.ite_none_right_eq_some] at h
      cases h.2
      simp
  | overwriteBucket n v =>
      rw [write?, Option.ite_none_right_eq_some] at h
      cases h.2
      exact h.1
  | resize _ _ => cases h
  | resizeArray _ => cases h

/-- No run has written under the vacant key, so every key of its log has entries. -/
theorem Runs.ne_vacant (hRuns : Runs log t) : ∀ w ∈ log, w.1 ≠ .vacant := by
  induction hRuns with
  | new => simp
  | done _ op _ ih =>
      intro w hw
      rcases List.mem_append.mp hw with hNew | hOld
      · exact Operation.write?_ne_vacant (Option.mem_toList.mp hNew)
      · exact ih w hOld
  | failed _ _ _ _ ih => exact ih

/-! ### Keys that are held -/

/-- The keys of all live slots and buckets. -/
def liveKeys (t : Table) : List Key := (t.displaced 0).map (·.1)

/-- The live keys of a table are its live buckets and its live slots. These are the two numbers that
a count of the entries adds up. -/
theorem length_liveKeys (t : Table) :
    t.liveKeys.length = t.hashLength + t.array.countP fun v => !v.isNil := by
  have hSlots : (((t.array.toList.drop 0).zipIdx (0 + 1)).filterMap fun (e : Value × Nat) =>
      if e.1.isNil then none else some (Key.int (Int64.ofNat e.2), e.1)).length =
        t.array.toList.countP fun v => !v.isNil := by
    rw [List.length_filterMap_eq_countP, List.drop_zero]
    conv_rhs => rw [← List.zipIdx_map_fst (0 + 1) t.array.toList, List.countP_map]
    apply List.countP_congr
    intro e _
    cases hNil : e.1.isNil <;> simp [hNil]
  rw [liveKeys, List.length_map, displaced, List.length_append, hSlots, List.length_map, liveNodes,
    ← List.countP_eq_length_filter, Array.countP_toList, Array.countP_toList, Nat.add_comm]
  rfl

/-- The live keys are those of the slots, in order, and then those of the buckets. -/
theorem liveKeys_eq (t : Table) : t.liveKeys =
    (t.liveIndices.map fun i => .int (Int64.ofNat i)) ++ t.liveNodes.map (·.key) := by
  rw [liveKeys, displaced, List.map_append, List.map_map, List.map_filterMap, liveIndices,
    List.map_filterMap, List.drop_zero]
  congr 2
  funext e
  cases hNil : e.1.isNil <;> simp [hNil]

/-- The key of a slot fits an array part that is long enough. -/
theorem fitsArray_slot {i : Nat} (hFirst : 1 ≤ i) (hLast : i ≤ twoPow Limits.arrayBits)
    (size : Nat) :
    fitsArray size (.int (Int64.ofNat i)) = decide (i ≤ size) := by
  rw [fitsArray, (arrayCandidate?_eq_some_iff _ i).mpr ⟨rfl, hFirst, hLast⟩, Option.any_some]

/-- The keys that would get no slot in an array part of some size, counted over slots and buckets at
once. -/
theorem unslotted_eq (hSlots : t.arrayLimit ≤ twoPow Limits.arrayBits) (arraySize : Nat) :
    t.unslotted arraySize = t.liveKeys.countP fun k => !fitsArray arraySize k := by
  rw [liveKeys_eq, List.countP_append, List.countP_map, unslotted]
  congr 1
  apply List.countP_congr
  intro i hi
  have hFits := fitsArray_slot (t.liveIndices_pos i hi)
    (Nat.le_trans (t.liveIndices_le i hi) hSlots) arraySize
  simp [hFits]

/-- A rebuild for a new key asks for a bucket for each live key, and for the new one, that gets no
slot. -/
theorem sizesWith_demand (hSlots : t.arrayLimit ≤ twoPow Limits.arrayBits) (k : Key) :
    (t.sizesWith k).2 =
      (t.liveKeys ++ [k]).countP fun l => !fitsArray (t.sizesWith k).1 l := by
  rw [sizesWith_unslotted, unslotted_eq hSlots, List.countP_append, List.countP_singleton]

/-- A key is one of the live ones exactly if the table holds something under it. It may be listed by
another key that is the same. -/
theorem mem_liveKeys_iff (hChained : t.Chained) (k : Key) :
    (∃ l ∈ t.liveKeys, l.same k = true) ↔ (t.held? k).isSome = true := by
  constructor
  · rintro ⟨l, hl, hSame⟩
    obtain ⟨e, he, rfl⟩ := List.mem_map.mp hl
    rw [← held?_eq_of_same hChained hSame, (held?_of_mem_displaced hChained he).2]
    rfl
  · intro hHeld
    obtain ⟨v, hv⟩ := Option.isSome_iff_exists.mp hHeld
    rcases mem_displaced_of_held? hChained 0 hv with ⟨i, hi, _⟩ | ⟨e, he, hSame⟩
    · cases hi
    · exact ⟨e.1, List.mem_map_of_mem he, hSame⟩

theorem zipIdx_pairwise (values : List Value) (start : Nat) :
    (values.zipIdx start).Pairwise fun a b => a.2 < b.2 := by
  rw [← List.pairwise_map, List.zipIdx_map_snd]
  exact List.pairwise_lt_range'

/-- Keys of different slots differ. -/
theorem slotKeys_apart (hSlots : t.arrayLimit ≤ twoPow Limits.arrayBits) :
    ((t.array.toList.drop 0).zipIdx (0 + 1)).Pairwise fun a b =>
      (Key.int (Int64.ofNat a.2)).same (.int (Int64.ofNat b.2)) = false := by
  have hBits : twoPow Limits.arrayBits = 2 ^ 31 := rfl
  refine (zipIdx_pairwise _ _).imp_of_mem fun {a b} ha hb hLt => ?_
  have hb' := List.snd_lt_of_mem_zipIdx hb
  simp only [List.drop_zero, Array.length_toList] at hb'
  have hSize : t.array.size ≤ 2 ^ 31 := hSlots
  simp only [Key.same, decide_eq_false_iff_not]
  intro hEq
  rw [← Int64.toInt_inj, Int64.toInt_ofNat_of_lt (by omega), Int64.toInt_ofNat_of_lt (by omega)]
    at hEq
  omega

/-- Keys of different live buckets differ. -/
theorem liveNodes_apart (hChained : t.Chained) :
    t.liveNodes.Pairwise fun a b => a.key.same b.key = false := by
  apply List.Pairwise.filter
  rw [List.pairwise_iff_getElem]
  intro i j hi hj hLt
  have hNode (n : Nat) (hn : n < t.nodes.toList.length) : t.nodes.toList[n] = t.node n := by
    have hSize : n < t.nodes.size := by simpa using hn
    simp [node_eq_getD, hSize]
  rw [hNode i hi, hNode j hj]
  by_contra hSame
  rw [Bool.not_eq_false] at hSame
  exact Nat.ne_of_lt hLt (hChained.distinct i j hSame)

/-- The live keys of a table are told apart. A key of a slot is not in a bucket too, and no key is
in two buckets. -/
theorem liveKeys_apart (hChained : t.Chained) : Key.Apart t.liveKeys := by
  rw [Key.Apart, liveKeys, List.pairwise_map, displaced, List.pairwise_append, List.pairwise_map]
  refine ⟨?_, liveNodes_apart hChained, ?_⟩
  · refine (slotKeys_apart hChained.slots).filterMap _ fun a b hApart e he d hd => ?_
    rw [Option.ite_none_left_eq_some] at he hd
    cases he.2
    cases hd.2
    exact hApart
  · -- The key of a slot has that slot, and the key of a bucket has none.
    intro e he d hd
    obtain ⟨⟨v, i⟩, hMem, hLive⟩ := List.mem_filterMap.mp he
    rw [Option.ite_none_left_eq_some] at hLive
    cases hLive.2
    obtain ⟨node, hNode, rfl⟩ := List.mem_map.mp hd
    obtain ⟨n, rfl, _⟩ := (mem_liveNodes t node).mp hNode
    have hFirst := List.le_snd_of_mem_zipIdx hMem
    have hLast := List.snd_lt_of_mem_zipIdx hMem
    simp only [List.drop_zero, Array.length_toList] at hFirst hLast
    have hSlot : t.slot? (.int (slotKey (i - 1))) = some (i - 1) :=
      arrayIndex?_slotKey hChained.slots (by rw [arrayLimit]; omega)
    rw [slotKey, Nat.sub_add_cancel hFirst] at hSlot
    simpa using not_same_of_slot? hSlot (hChained.unshadowed n) (by simp)

/-- A new key is not the same as a live one. So a tally over all of them counts it once. -/
theorem Insertable.apart_liveKeys (hNew : t.Insertable k) (hChained : t.Chained) :
    Key.Apart (t.liveKeys ++ [k]) := by
  refine List.pairwise_append.mpr ⟨liveKeys_apart hChained, List.pairwise_singleton _ k, ?_⟩
  intro l hl m hm
  rw [List.mem_singleton] at hm
  subst hm
  by_contra hSame
  rw [Bool.not_eq_false] at hSame
  have hHeld : (t.held? m).isSome = true := (mem_liveKeys_iff hChained m).mp ⟨l, hl, hSame⟩
  rw [hNew.held?_eq_none hChained ((Key.same_self_iff m).mpr hNew.key)] at hHeld
  cases hHeld

/-- A table that holds what was written last has as many live slots and buckets as there are keys
whose last write was not a nil. Both lists of keys are told apart and stand for the same entries, so
neither is longer than the other. -/
theorem Holds.count (hHolds : t.Holds log) (hChained : t.Chained)
    (hKeys : ∀ w ∈ log, w.1 ≠ .vacant) :
    t.hashLength + (t.array.countP fun v => !v.isNil) = log.liveKeys.length := by
  have hLive (k : Key) :
      (∃ l ∈ t.liveKeys, l.same k = true) ↔ ∃ l ∈ log.liveKeys, l.same k = true := by
    rw [mem_liveKeys_iff hChained, Log.mem_liveKeys_iff, hHolds k]
    cases log.last? k with
    | none => simp
    | some v => cases hNil : v.isNil <;> simp [Value.nonNil?, hNil]
  rw [← length_liveKeys]
  apply Nat.le_antisymm
  · refine (liveKeys_apart hChained).length_le fun k hk => (hLive k).mp ⟨k, hk, ?_⟩
    obtain ⟨e, he, rfl⟩ := List.mem_map.mp hk
    exact (Key.same_self_iff _).mpr (held?_of_mem_displaced hChained he).1
  · refine log.liveKeys_apart.length_le fun k hk => (hLive k).mpr ⟨k, hk, ?_⟩
    exact (Key.same_self_iff _).mpr (Log.ne_vacant_of_mem_liveKeys hKeys hk)

/-! ### Where an entry is -/

/-- A bucket has no key that the array part has a slot for. -/
theorem Chained.not_in_array (hChained : t.Chained) {n : Nat} {i : Int64}
    (hKey : (t.node n).key = .int i) : ¬(1 ≤ i.toInt ∧ i.toInt ≤ t.arrayLimit) := by
  intro hIn
  have hSlot : t.slot? (.int i) = some (i.toInt.toNat - 1) :=
    (arrayIndex?_eq_some_iff hChained.slots i _).mpr (by omega)
  rw [← hKey, hChained.unshadowed n] at hSlot
  cases hSlot

/-- An integer within the array part is not sought in the hash part. -/
theorem Chained.not_inHashPart (hChained : t.Chained) {i : Int64}
    (hIn : 1 ≤ i.toInt ∧ i.toInt ≤ t.arrayLimit) : t.inHashPart i = false := by
  unfold inHashPart
  cases hFind : t.find? (.int i) with
  | none => rfl
  | some n =>
      have hSame := (hChained.find?_eq_some_iff _ n).mp hFind
      rw [Key.same_int_iff] at hSame
      exact absurd hIn (hChained.not_in_array hSame)

/-- An entry is in one slot and no bucket, or in one bucket and no slot. No bucket has the key in
the first case, live or dead. -/
theorem Chained.one_place (hChained : t.Chained) (hHeld : t.held? k = some v) :
    (∃ i, t.slot? k = some i ∧ t.array[i]? = some v ∧ ∀ n, (t.node n).key.same k = false) ∨
    (t.slot? k = none ∧ ∃ n, (t.node n).value = v ∧ ∀ m, (t.node m).key.same k = true ↔ m = n) := by
  rw [held?, lookup_eq] at hHeld
  cases hSlot : t.slot? k with
  | some i =>
      rw [hSlot] at hHeld
      obtain ⟨hCell, _⟩ := (Value.nonNil?_eq_some_iff _ v).mp hHeld
      refine Or.inl ⟨i, rfl, ?_, fun n => ?_⟩
      · have hLt : i < t.array.size := slot?_lt hSlot
        simpa [hLt] using hCell
      · simpa using not_same_of_slot? (hChained.unshadowed n) hSlot (by simp)
  | none =>
      rw [hSlot] at hHeld
      obtain ⟨_, n, hSame, hValue⟩ := (hChained.getNode_nonNil?_eq_some_iff k v).mp hHeld
      refine Or.inr ⟨rfl, n, hValue, fun m => ⟨fun hOther => ?_, ?_⟩⟩
      · exact hChained.distinct m n (Key.same_trans hOther (Key.same_symm hSame))
      · rintro rfl
        exact hSame

/-! ### Runs in which array parts grow -/

/-- Making a slot exist is a resize of the array part or does nothing, so such runs
lead to no other tables. -/
theorem GrownRuns.runs (hRuns : GrownRuns log t) : Runs log t := by
  induction hRuns with
  | new => exact .new
  | done _ op hRun ih => exact .done ih op hRun
  | failed _ op hRun hMemory ih => exact .failed ih op hRun hMemory
  | @ensured log t j r j' t' _ config i loc hTable hRun hTable' ih =>
      rcases ensureArraySlot_cases hTable i loc config with
        ⟨j₁, hDone, hHost⟩ | ⟨e, j₁, hRaised, _⟩
      · rw [hDone] at hRun
        cases hRun
        rcases hHost with hSame | ⟨size, t₁, hResize, hPut⟩
        · rw [hSame, hTable] at hTable'
          cases hTable'
          exact ih
        · rw [hPut, Heap.object?_withObject_self hTable] at hTable'
          cases hTable'
          exact .done ih (.resizeArray size) hResize
      · rw [hRaised] at hRun
        cases hRun
  | @refused log t j r e j' t' _ config i loc hTable hRun hMemory hTable' ih =>
      rcases ensureArraySlot_cases hTable i loc config with ⟨j₁, hDone, _⟩ | ⟨e₁, j₁, hRaised, hHost⟩
      · rw [hDone] at hRun
        cases hRun
      · rw [hRaised] at hRun
        cases hRun
        rw [hHost.resolve_left (by simp [hMemory]), hTable] at hTable'
        cases hTable'
        exact ih

/-- After any run in which memory did not run out, no bucket has a key of the
array part, live or dead; an entry is in one slot or one bucket; and the live
slots and buckets are as many as the keys whose last write was not a nil. -/
theorem entries_stored_once (hRuns : GrownRuns log t) :
    (∀ n (i : Int64), (t.node n).key = .int i → ¬(1 ≤ i.toInt ∧ i.toInt ≤ t.arrayLimit)) ∧
    (∀ i : Int64, 1 ≤ i.toInt → i.toInt ≤ t.arrayLimit → t.inHashPart i = false) ∧
    (∀ k v, log.last? k = some v → v.isNil = false →
      (∃ i, t.slot? k = some i ∧ t.array[i]? = some v ∧ ∀ n, (t.node n).key.same k = false) ∨
      (t.slot? k = none ∧
        ∃ n, (t.node n).value = v ∧ ∀ m, (t.node m).key.same k = true ↔ m = n)) ∧
    Key.Apart log.liveKeys ∧
    (∀ k, (∃ l ∈ log.liveKeys, l.same k = true) ↔ ∃ v, log.last? k = some v ∧ v.isNil = false) ∧
    t.hashLength + (t.array.countP fun v => !v.isNil) = log.liveKeys.length := by
  obtain ⟨hWell, hHolds⟩ := hRuns.runs.holds
  have hChained := hWell.toChained
  refine ⟨fun n i hKey => hChained.not_in_array hKey,
    fun i hFirst hLast => hChained.not_inHashPart ⟨hFirst, hLast⟩, fun k v hLast hLive => ?_,
    log.liveKeys_apart, log.mem_liveKeys_iff, hHolds.count hChained hRuns.runs.ne_vacant⟩
  apply hChained.one_place
  rw [hHolds k, hLast]
  exact (Value.nonNil?_eq_some_iff v v).mpr ⟨rfl, hLive⟩

/-- A run in which an entry moves to a slot and back to a bucket, and another is
erased. -/
theorem entries_stored_once_moved : ∃ log t, GrownRuns log t ∧ t.hashLength = 1 ∧
    t.arrayLimit = 2 ∧ t.inHashPart 3 = true ∧ log.liveKeys = [.int 1, .int 3] ∧
    t.hashLength + (t.array.countP fun v => !v.isNil) = log.liveKeys.length := by
  have hStored := GrownRuns.done .new (.setInt 3 (.bool true)) rfl
  obtain ⟨t₁, hGrown, hMoved⟩ : ∃ t₁, GrownRuns [(.int 3, .bool true)] t₁ ∧
      t₁ = { array := #[.nil, .nil, .bool true, .nil], nodes := #[{}], lastFree := some 1 } := by
    refine ⟨_, hStored.ensured (j := { host := { objects := #[⟨.white, .table _⟩] } }) (r := ⟨0⟩)
      {} 4 {} rfl rfl rfl, ?_⟩
    decide
  subst hMoved
  have hRuns := ((((hGrown.done (.resize 2 2) rfl).done (.setStr ⟨0, 0, [102]⟩ (.int 7)) rfl).done
    (.setInt 1 (.bool false)) rfl).done (.overwriteStr ⟨0, 0, [102]⟩ .nil) rfl)
  exact ⟨_, _, hRuns, by decide, by decide, by decide, by decide,
    (entries_stored_once hRuns).2.2.2.2.2⟩

end Table

end TaggedRuntime
