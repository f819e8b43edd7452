import TaggedRuntime.Proofs.Table.Sizing
import TaggedRuntime.Proofs.Table.Store
import TaggedRuntime.Proofs.Words

/-! Both parts of a table replaced by parts of other sizes. The table that
waits for its displaced entries has the invariant and the entries whose slots
were kept; the displaced entries are the others. -/

namespace TaggedRuntime.Table

variable {t : Table} {k l : Key} {v : Value}

/-- Which integers have a slot, and which slot. The comparison of unsigned words leaves out those
that are not positive. -/
theorem arrayIndex?_eq_some_iff (hSlots : t.arrayLimit ≤ twoPow Limits.arrayBits) (n : Int64)
    (i : Nat) : t.arrayIndex? n = some i ↔ n.toInt = i + 1 ∧ i < t.arrayLimit := by
  have hBound : t.array.size ≤ 2 ^ 31 := hSlots
  simp only [arrayIndex?, arrayLimit, Option.ite_none_right_eq_some, Option.some.injEq]
  by_cases hFirst : 1 ≤ n.toInt
  · have hWord := toNat_pred hFirst
    omega
  · have hWord := le_toNat_pred (Int.not_le.mp hFirst)
    omega

/-- The key of a slot, counted from one. -/
def slotKey (i : Nat) : Int64 := Int64.ofNat (i + 1)

theorem arrayIndex?_slotKey (hSlots : t.arrayLimit ≤ twoPow Limits.arrayBits) {i : Nat}
    (hi : i < t.arrayLimit) : t.arrayIndex? (slotKey i) = some i := by
  have hBits : twoPow Limits.arrayBits = 2 ^ 31 := rfl
  have hInt : (slotKey i).toInt = i + 1 := by
    rw [slotKey, Int64.toInt_ofNat_of_lt (by omega)]
    rfl
  exact (arrayIndex?_eq_some_iff hSlots _ _).mpr ⟨hInt, hi⟩

theorem slotKey_of_arrayIndex? (hSlots : t.arrayLimit ≤ twoPow Limits.arrayBits) {n : Int64}
    {i : Nat} (h : t.arrayIndex? n = some i) : slotKey i = n := by
  obtain ⟨hInt, hi⟩ := (arrayIndex?_eq_some_iff hSlots n i).mp h
  have hBits : twoPow Limits.arrayBits = 2 ^ 31 := rfl
  rw [← Int64.toInt_inj, slotKey, Int64.toInt_ofNat_of_lt (by omega), hInt]
  rfl

/-- Within the bound on array parts, a key has a slot when it is one of the
candidates up to the size of the part. -/
theorem slot?_isSome (hSlots : t.arrayLimit ≤ twoPow Limits.arrayBits) (k : Key) :
    (t.slot? k).isSome = fitsArray t.arrayLimit k := by
  cases k with
  | int n =>
      rw [Bool.eq_iff_iff, Option.isSome_iff_exists]
      simp only [slot?, arrayIndex?_eq_some_iff hSlots, fitsArray, Key.arrayCandidate?]
      constructor
      · rintro ⟨i, hInt, hLt⟩
        rw [if_pos (by omega), Option.any_some, decide_eq_true_eq]
        omega
      · intro hFits
        split at hFits
        next hIn =>
          simp only [Option.any_some, decide_eq_true_eq] at hFits
          exact ⟨n.toInt.toNat - 1, by omega, by omega⟩
        next => cases hFits
  | _ => rfl

/-! ### The table that a rebuild starts from -/

/-- A table without entries is well-formed, whatever the sizes of its parts. The sizes have to be
some that a table can have. -/
theorem chained_of_vacant (hVacant : ∀ n, t.node n = {})
    (hBuckets : ∃ bits, bits ≤ Limits.hashBits ∧ t.bucketCount = twoPow bits)
    (hSlots : t.arrayLimit ≤ twoPow Limits.arrayBits) : t.Chained where
  buckets := hBuckets
  slots := hSlots
  vacant n _ := hVacant n
  inside a hNext := by simp [hVacant] at hNext
  joinless a b c hac _ := by simp [Link, hVacant] at hac
  ranked := ⟨fun _ => 0, fun a b hLink => by simp [Link, hVacant] at hLink, fun _ => Or.inl rfl⟩
  distinct a b hSame := by simp [hVacant] at hSame
  reached n hn := by simp [Occupied, hVacant] at hn
  homes n hn := by simp [Occupied, hVacant] at hn
  unshadowed n := by
    rw [hVacant]
    rfl

/-- A table without entries holds nothing outside its slots. -/
theorem held?_of_vacant (hVacant : ∀ n, t.node n = {}) (hSlot : t.slot? k = none) :
    t.held? k = none := by
  have hFind : t.find? k = none := by
    cases hFind : t.find? k with
    | none => rfl
    | some n =>
        have hSame := test_of_search (fun _ node => node.key.same k) hFind
        simp [hVacant] at hSame
  simp [held?, lookup_eq, hSlot, getNode, hFind, Value.nonNil?, Value.isNil]

theorem node_new (n : Nat) : node {} n = {} := by cases n <;> rfl

/-- An empty table has the representation invariant. -/
theorem wellFormed_empty (metatable : Option Handle) : WellFormed { metatable } where
  toChained := chained_of_vacant node_new ⟨0, Nat.zero_le _, rfl⟩ (Nat.zero_le _)
  dummy _ := rfl
  bound b hb := by cases hb
  taken b hb := by cases hb

theorem wellFormed_new : WellFormed {} := wellFormed_empty none

theorem held?_new (k : Key) : held? {} k = none := by
  apply held?_of_vacant node_new
  cases k <;> simp [slot?, arrayIndex?]

/-- The table whose parts have been replaced and that waits for its displaced
entries. -/
def cleared (t : Table) (arraySize hashSize : Nat) : Table :=
  { t with
    array := resizedArray t.array arraySize
    nodes := Array.replicate (twoPow (ceilLog2 hashSize)) {}
    lastFree := if hashSize = 0 then none else some (twoPow (ceilLog2 hashSize)) }

section Cleared

variable {arraySize hashSize : Nat}

theorem node_cleared (t : Table) (arraySize hashSize n : Nat) :
    (t.cleared arraySize hashSize).node n = {} := by
  rw [node_eq_getD, cleared, Array.getElem?_replicate]
  split <;> rfl

@[simp] theorem bucketCount_cleared (t : Table) (arraySize hashSize : Nat) :
    (t.cleared arraySize hashSize).bucketCount = twoPow (ceilLog2 hashSize) := by
  simp [bucketCount, cleared]

@[simp] theorem arrayLimit_cleared (t : Table) (arraySize hashSize : Nat) :
    (t.cleared arraySize hashSize).arrayLimit = arraySize := by
  simp only [arrayLimit, cleared, resizedArray]
  split
  next h =>
    rw [Array.size_extract]
    omega
  next h =>
    rw [Array.size_append, Array.size_replicate]
    omega

/-- A slot that is kept has the value that it had. A slot that is new has none. -/
theorem getD_cleared {i : Nat} (hi : i < arraySize) :
    (t.cleared arraySize hashSize).array.getD i .nil = t.array.getD i .nil := by
  simp only [cleared, resizedArray, Array.getD_eq_getD_getElem?]
  split
  next h =>
    have hIn : i < t.array.size := Nat.lt_trans hi h
    simp [hi, hIn]
  next h =>
    rw [Array.getElem?_append]
    split
    next => rfl
    next hOut =>
      rw [Array.getElem?_replicate, Array.getElem?_eq_none (Nat.le_of_not_lt hOut)]
      split <;> rfl

theorem occupied_cleared (t : Table) (arraySize hashSize : Nat) :
    (t.cleared arraySize hashSize).occupied = 0 := by
  simp [occupied, Occupied, node_cleared]

/-- A cleared table has room for as many entries as it was asked for. -/
theorem hashSize_le_capacity_cleared (t : Table) (arraySize hashSize : Nat) :
    hashSize ≤ (t.cleared arraySize hashSize).capacity := by
  unfold capacity
  rw [bucketCount_cleared]
  by_cases hNone : hashSize = 0
  · omega
  · have hReal : (t.cleared arraySize hashSize).isDummy = false := by
      simp [isDummy, cleared, hNone]
    rw [hReal]
    exact le_twoPow_ceilLog2 hashSize

/-- A key keeps its slot, if that is kept. -/
theorem slot?_cleared (hSlots : t.arrayLimit ≤ twoPow Limits.arrayBits)
    (hArray : arraySize ≤ twoPow Limits.arrayBits) {i : Nat} (hSlot : t.slot? k = some i)
    (hi : i < arraySize) : (t.cleared arraySize hashSize).slot? k = some i := by
  cases k with
  | int n =>
      rw [slot?, arrayIndex?_eq_some_iff hSlots] at hSlot
      rw [slot?, arrayIndex?_eq_some_iff (by rwa [arrayLimit_cleared]), arrayLimit_cleared]
      exact ⟨hSlot.1, hi⟩
  | _ => cases hSlot

/-- A slot that is kept still holds its entry. -/
theorem held?_cleared (hSlots : t.arrayLimit ≤ twoPow Limits.arrayBits)
    (hArray : arraySize ≤ twoPow Limits.arrayBits) {i : Nat} (hSlot : t.slot? k = some i)
    (hi : i < arraySize) : (t.cleared arraySize hashSize).held? k = t.held? k := by
  simp only [held?, lookup_eq, hSlot, slot?_cleared hSlots hArray hSlot hi, getD_cleared hi]

/-- A table that has been cleared holds nothing that it did not hold before. Slots that are new hold
nothing, and so do all buckets. -/
theorem held?_of_cleared (hSlots : t.arrayLimit ≤ twoPow Limits.arrayBits)
    (hArray : arraySize ≤ twoPow Limits.arrayBits)
    (h : (t.cleared arraySize hashSize).held? k = some v) : t.held? k = some v := by
  cases hSlot : (t.cleared arraySize hashSize).slot? k with
  | none =>
      rw [held?_of_vacant (t.node_cleared arraySize hashSize) hSlot] at h
      cases h
  | some i =>
      have hi : i < arraySize := by
        have hLt := slot?_lt hSlot
        rwa [← arrayLimit, arrayLimit_cleared] at hLt
      rw [held?, lookup_eq, hSlot] at h
      change ((t.cleared arraySize hashSize).array.getD i .nil).nonNil? = some v at h
      rw [getD_cleared hi] at h
      have hIn : i < t.arrayLimit := by
        by_contra hOut
        have hNil : t.array.getD i .nil = .nil := by
          simp [Array.getElem?_eq_none (Nat.le_of_not_lt hOut)]
        rw [hNil] at h
        cases h
      cases k with
      | int n =>
          rw [slot?, arrayIndex?_eq_some_iff (by rwa [arrayLimit_cleared])] at hSlot
          have hOld := (arrayIndex?_eq_some_iff hSlots n i).mpr ⟨hSlot.1, hIn⟩
          simpa [held?, lookup_eq, slot?, hOld] using h
      | _ => cases hSlot

/-- A cleared table is well-formed, for sizes within the limits. The table before may be any. -/
theorem wellFormed_cleared (hArray : arraySize ≤ twoPow Limits.arrayBits)
    (hHash : ceilLog2 hashSize ≤ Limits.hashBits) :
    (t.cleared arraySize hashSize).WellFormed where
  toChained := chained_of_vacant (t.node_cleared arraySize hashSize)
    ⟨_, hHash, t.bucketCount_cleared arraySize hashSize⟩
    (by rwa [arrayLimit_cleared])
  dummy hDummy := by
    have hNone : hashSize = 0 := by
      by_contra hSome
      simp [cleared, hSome] at hDummy
    subst hNone
    rfl
  bound b hb := by
    rw [bucketCount_cleared]
    simp only [cleared, Option.ite_none_left_eq_some, Option.some.injEq] at hb
    omega
  taken b hb n hbn hn := by
    rw [bucketCount_cleared] at hn
    simp only [cleared, Option.ite_none_left_eq_some, Option.some.injEq] at hb
    omega

end Cleared

/-! ### The entries that are stored again -/

/-- A table holds the same under keys that are the same. -/
theorem held?_eq_of_same (hChained : t.Chained) (h : k.same l = true) :
    t.held? k = t.held? l := by
  have hFind : t.find? k = t.find? l := by
    apply Option.ext
    intro n
    rw [hChained.find?_eq_some_iff, hChained.find?_eq_some_iff, Key.same_comm _ k,
      Key.same_congr h, Key.same_comm]
  simp only [held?, lookup_eq, slot?_eq_of_same h, getNode, hFind]

/-- The live buckets are those with a value that is none of the nils. A bucket with a key but no
value is dead. -/
theorem mem_liveNodes (t : Table) (node : Node) :
    node ∈ t.liveNodes ↔ ∃ n, t.node n = node ∧ node.value.isNil = false := by
  simp only [liveNodes, List.mem_filter, Array.mem_toList_iff, Bool.not_eq_true']
  constructor
  · rintro ⟨hMem, hLive⟩
    obtain ⟨n, hn, rfl⟩ := Array.mem_iff_getElem.mp hMem
    exact ⟨n, by simp [node_eq_getD, hn], hLive⟩
  · rintro ⟨n, rfl, hLive⟩
    have hn : n < t.nodes.size := by
      by_contra hOut
      rw [node_eq_default (Nat.le_of_not_lt hOut)] at hLive
      cases hLive
    exact ⟨by simp [node_eq_getD, hn], hLive⟩

/-- What is stored again is what is live in the slots behind the cut and in the buckets. Its key is
that of the slot or that of the bucket. -/
theorem mem_displaced (t : Table) (arraySize : Nat) (k : Key) (v : Value) :
    (k, v) ∈ t.displaced arraySize ↔ v.isNil = false ∧
      ((∃ i, arraySize ≤ i ∧ t.array[i]? = some v ∧ k = .int (slotKey i)) ∨
        ∃ n, t.node n = { t.node n with key := k, value := v }) := by
  rw [displaced, List.mem_append, and_or_left]
  refine or_congr ?_ ?_
  · simp only [List.mem_filterMap]
    constructor
    · rintro ⟨⟨w, i⟩, hMem, hLive⟩
      rw [List.mk_mem_zipIdx_iff_le_and_getElem?_sub, List.getElem?_drop, Array.getElem?_toList]
        at hMem
      split at hLive
      next => cases hLive
      next hNil =>
        cases hLive
        have hIndex : arraySize + (i - (arraySize + 1)) = i - 1 := by omega
        rw [hIndex] at hMem
        refine ⟨by simpa using hNil, i - 1, by omega, hMem.2, ?_⟩
        rw [slotKey, Nat.sub_add_cancel (by omega)]
    · rintro ⟨hLive, i, hi, hSlot, rfl⟩
      refine ⟨(v, i + 1), ?_, by simp [hLive, slotKey]⟩
      rw [List.mk_mem_zipIdx_iff_le_and_getElem?_sub, List.getElem?_drop, Array.getElem?_toList]
      have hIndex : arraySize + (i + 1 - (arraySize + 1)) = i := by omega
      exact ⟨by omega, by rw [hIndex, hSlot]⟩
  · rw [List.mem_map]
    constructor
    · rintro ⟨node, hMem, hEntry⟩
      cases hEntry
      obtain ⟨n, rfl, hLive⟩ := (mem_liveNodes t node).mp hMem
      exact ⟨hLive, n, rfl⟩
    · rintro ⟨hLive, n, hNode⟩
      refine ⟨t.node n, (mem_liveNodes t _).mpr ⟨n, rfl, ?_⟩, ?_⟩
      · rw [hNode]
        exact hLive
      · rw [hNode]

/-- An entry that is stored again is one of the table's. Its key is not vacant, so it can be stored.
-/
theorem held?_of_mem_displaced (hChained : t.Chained) {arraySize : Nat} {e : Key × Value}
    (h : e ∈ t.displaced arraySize) : e.1 ≠ .vacant ∧ t.held? e.1 = some e.2 := by
  obtain ⟨k, v⟩ := e
  obtain ⟨hLive, ⟨i, _, hArray, rfl⟩ | ⟨n, hNode⟩⟩ := (t.mem_displaced arraySize k v).mp h
  · have hi : i < t.arrayLimit := (Array.getElem?_eq_some_iff.mp hArray).1
    have hSlot : t.slot? (.int (slotKey i)) = some i := arrayIndex?_slotKey hChained.slots hi
    refine ⟨by simp, ?_⟩
    simp [held?, lookup_eq, hSlot, hArray, Value.nonNil?, hLive]
  · have hKey : (t.node n).key = k := congrArg Node.key hNode
    have hValue : (t.node n).value = v := congrArg Node.value hNode
    subst hKey hValue
    have hHeld : (t.node n).key ≠ .vacant := by
      intro hVacant
      rw [hChained.vacant n (by simp [Occupied, hVacant])] at hLive
      cases hLive
    refine ⟨hHeld, ?_⟩
    have hSame := (Key.same_self_iff _).mpr hHeld
    simp [held?, lookup_eq, hChained.unshadowed n, hChained.getNode_eq_of_same hSame,
      Value.nonNil?, hLive]

/-- Every entry is stored again or keeps its slot. Together with the lemma before this says that a
rebuild has exactly the right entries to store. -/
theorem mem_displaced_of_held? (hChained : t.Chained) (arraySize : Nat)
    (h : t.held? k = some v) : (∃ i, i < arraySize ∧ t.slot? k = some i) ∨
      ∃ e ∈ t.displaced arraySize, e.1.same k = true := by
  obtain ⟨hGet, hLive⟩ := (Value.nonNil?_eq_some_iff _ v).mp h
  rw [lookup_eq] at hGet
  cases hSlot : t.slot? k with
  | none =>
      rw [hSlot] at hGet
      obtain ⟨_, n, hSame, rfl⟩ := (hChained.getNode_nonNil?_eq_some_iff k v).mp
        ((Value.nonNil?_eq_some_iff _ v).mpr ⟨hGet, hLive⟩)
      exact Or.inr ⟨((t.node n).key, (t.node n).value),
        (t.mem_displaced arraySize _ _).mpr ⟨hLive, Or.inr ⟨n, rfl⟩⟩, hSame⟩
  | some i =>
      by_cases hi : i < arraySize
      · exact Or.inl ⟨i, hi, rfl⟩
      · cases k with
        | int n =>
            rw [hSlot] at hGet
            have hArray : t.array[i]? = some v := by
              have hIn : i < t.array.size := slot?_lt hSlot
              simpa [hIn] using hGet
            have hKey : slotKey i = n := slotKey_of_arrayIndex? hChained.slots hSlot
            refine Or.inr ⟨(.int (slotKey i), v), (t.mem_displaced arraySize _ _).mpr
              ⟨hLive, Or.inl ⟨i, Nat.le_of_not_lt hi, hArray, rfl⟩⟩, ?_⟩
            simp [Key.same, hKey]
        | _ => cases hSlot

end TaggedRuntime.Table
