import TaggedRuntime.Proofs.Table.Optimum
import TaggedRuntime.Proofs.Table.Overwriting

/-! Stores that are refused. A store gives up before it changes anything but where free buckets are
sought: under a value that is no key it does not begin, and a rebuild that needs too many buckets is
refused before it takes the table apart. A rebuild that is begun is carried out. -/

namespace TaggedRuntime

/-- The values that are no keys are the nils and the floats that are no number. Each has an error of
its own. -/
theorem Key.ofValue_eq_error {x : Value} {e : StoreError} (h : Key.ofValue x = .error e) :
    e = .nilKey ∧ x.isNil = true ∨ e = .nanKey ∧ ∃ f, x = .float f ∧ f.isNaN = true := by
  cases x with
  | nil | absent =>
      cases h
      exact Or.inl ⟨rfl, rfl⟩
  | float f =>
      rw [Key.ofValue] at h
      split at h
      next hNaN =>
        cases h
        exact Or.inr ⟨rfl, f, rfl, hNaN⟩
      next => split at h <;> cases h
  | _ => cases h

namespace Table

variable {t t' t₁ : Table} {k : Key} {v x : Value} {e : StoreError} {op : Operation}

/-- The value that an operation stores under, and what it stores. -/
def Operation.store? : Operation → Option (Value × Value)
  | set x v => some (x, v)
  | setInt n v => some (.int n, v)
  | setStr s v => some (.str s, v)
  | _ => none

/-- An operation that stores runs the store under its key, if its value has one. -/
theorem Operation.run_store (hStore : op.store? = some (x, v)) :
    op.change.run t = match Key.ofValue x with
      | .ok key => (setKey 1 key v).run t
      | .error e => .error e t := by
  cases op with
  | set _ _ =>
      cases hStore
      exact set_run x v t
  | setInt _ _ =>
      cases hStore
      rfl
  | setStr _ _ =>
      cases hStore
      rfl
  | _ => cases hStore

/-! ### What is left -/

/-- Two tables with the same slots, the same buckets, links and all, and the same metatable. -/
structure Untouched (t t' : Table) : Prop where
  array : t'.array = t.array
  nodes : t'.nodes = t.nodes
  metatable : t'.metatable = t.metatable
  dummy : t'.isDummy = t.isDummy

namespace Untouched

theorem refl (t : Table) : t.Untouched t := ⟨rfl, rfl, rfl, rfl⟩

/-- A search for a free bucket that found none changes nothing else. -/
theorem exhausted (t : Table) : t.Untouched t.exhausted :=
  ⟨rfl, rfl, rfl, by simp [isDummy, Table.exhausted, withLastFree]⟩

theorem sizes (h : t.Untouched t') : t.SameSizes t' where
  arrayLimit := congrArg Array.size h.array
  bucketCount := congrArg Array.size h.nodes
  dummy := h.dummy

theorem sameShape (h : t.Untouched t') : t.SameShape t' where
  array := h.sizes.arrayLimit
  count := h.sizes.bucketCount
  key m := by rw [node, node, h.nodes]
  next m := by rw [node, node, h.nodes]
  vacant m _ := by rw [node, node, h.nodes]

theorem getInt (h : t.Untouched t') : t'.getInt = t.getInt := by
  funext n
  simp only [Table.getInt, arrayIndex?, h.array, getNode_congr h.nodes]

theorem getShortStr (h : t.Untouched t') : t'.getShortStr = t.getShortStr := by
  funext s
  simp only [Table.getShortStr, onChain?, search_congr h.nodes, home, bucketCount, node, h.nodes]

theorem getStr (h : t.Untouched t') : t'.getStr = t.getStr := by
  funext s
  simp only [Table.getStr, h.getShortStr, getNode_congr h.nodes]

theorem get (h : t.Untouched t') : t'.get = t.get := by
  funext x
  simp only [Table.get, h.getInt, getNode_congr h.nodes]

end Untouched

/-! ### Refusals -/

/-- A rebuild for a new key needs more buckets than there may be: the array part that it would
choose leaves too many keys without a slot. -/
def NeedsTooMany (t : Table) (k : Key) : Prop :=
  ∃ size, LargestFilled (t.inUse k) size ∧
    twoPow Limits.hashBits < (t.liveKeys ++ [k]).countP fun l => !l.within size

/-- Whether there are too many keys for the buckets is what the computed size says. -/
theorem Insertable.needsTooMany_iff (hNew : t.Insertable k) (hChained : t.Chained) :
    t.NeedsTooMany k ↔ twoPow Limits.hashBits < (t.sizesWith k).2 := by
  have hLargest := largestFilled_sizesWith hChained hNew
  have hDemand := sizesWith_demand hChained.slots k
  simp only [fitsArray_eq_within (t.sizesWith_fst_le k)] at hDemand
  rw [hDemand]
  constructor
  · rintro ⟨size, hSize, hLarge⟩
    rwa [Nat.le_antisymm (hLargest.le hSize) (hSize.le hLargest)]
  · exact fun hLarge => ⟨_, hLargest, hLarge⟩

/-- A store under a key is refused only where it asked for a rebuild, and that rebuild, whatever it
would store entries with, is refused before it stores any. All of its causes are in the size that
was computed before anything was moved. -/
theorem setKey_refused (hWell : t.WellFormed) (hKey : k ≠ .vacant)
    (hRun : (setKey 1 k v).run t = .error e t') :
    e = .outOfMemory ∧ t' = t.exhausted ∧ t'.WellFormed ∧ t.NeedsTooMany k ∧
      (setKey 0 k v).run t = .error .unsettled t' ∧
      ∀ put, (rehash put k).run t' = .error .outOfMemory t' := by
  obtain ⟨n, r, hCourse⟩ := course_of_wellFormed hWell hKey v
  rw [hCourse.setKey_run 0] at hRun
  subst hRun
  cases hCourse with
  | refused hTaken hFull hLarge =>
      obtain ⟨rfl, hExhausted, hNew, _⟩ := exhausted_of_full hWell hKey hFull
      have hPast : Limits.hashBits < ceilLog2 (t.exhausted.sizesWith k).2 := by
        rwa [← Nat.not_le, ceilLog2_le_iff, Nat.not_le]
      exact ⟨rfl, rfl, hExhausted, (hNew.needsTooMany_iff hWell.toChained).mpr hLarge, hFull,
        fun put => rehash_of_lt put hPast⟩

/-- A rebuild that a store asks for within the limit is carried out, and so is then the store. One
rebuild is enough, whatever the bound. -/
theorem setKey_rebuilt (hWell : t.WellFormed) (hKey : k ≠ .vacant)
    (hFull : (setKey 0 k v).run t = .error .unsettled t₁) (hWithin : ¬t.NeedsTooMany k) :
    ∃ t₂ t', (rehash (setKey 0) k).run t₁ = .ok () t₂ ∧ (setKey 0 k v).run t₂ = .ok () t' ∧
      ∀ bound, (setKey (bound + 1) k v).run t = .ok () t' := by
  obtain ⟨n, r, hCourse⟩ := course_of_wellFormed hWell hKey v
  have hRun := hCourse.setKey_run
  cases hCourse with
  | settled hSettled =>
      rw [hSettled] at hFull
      cases hFull
  | refused _ hFull' hLarge =>
      obtain ⟨rfl, _, hNew, _⟩ := exhausted_of_full hWell hKey hFull'
      exact absurd ((hNew.needsTooMany_iff hWell.toChained).mpr hLarge) hWithin
  | rebuilt _ hFull' _ _ hRebuild hAgain =>
      rw [hFull'] at hFull
      cases hFull
      exact ⟨_, _, hRebuild, hAgain, hRun⟩

/-- A store that is refused leaves the slots, the buckets and the metatable as they were, so every
look-up answers as before and keys that have a cell can be written. It is refused because its key is
nil or NaN, or because the rebuild that it asks for needs too many buckets; that rebuild is refused
before it stores anything again, and one that is not refused at once is carried out. -/
theorem refused_store_atomic (hReachable : t.Reachable) :
    (∀ (op : Operation) (x v : Value), op.store? = some (x, v) →
      ∀ (e : StoreError) (t' : Table), op.change.run t = .error e t' →
        (e = .nilKey ∧ x.isNil = true ∨ (e = .nanKey ∧ ∃ f, x = .float f ∧ f.isNaN = true) ∨
          e = .outOfMemory ∧ ∃ k, Key.ofValue x = .ok k ∧ t.NeedsTooMany k ∧
            (setKey 0 k v).run t = .error .unsettled t' ∧
            ∀ put, (rehash put k).run t' = .error .outOfMemory t') ∧
        t.Untouched t' ∧
        (t'.get = t.get ∧ t'.getInt = t.getInt ∧ t'.getStr = t.getStr ∧
          t'.getShortStr = t.getShortStr) ∧
        ∀ (later : Operation) (w : Key × Value), later.write? t = some w → t.HasCell w.1 →
          ∃ t'', later.change.run t' = .ok () t'' ∧ t'.Overwritten t'' w.1 w.2) ∧
    ∀ (k : Key) (v : Value) (t₁ : Table), k ≠ .vacant →
      (setKey 0 k v).run t = .error .unsettled t₁ → ¬t.NeedsTooMany k →
        ∃ t₂ t', (rehash (setKey 0) k).run t₁ = .ok () t₂ ∧ (setKey 0 k v).run t₂ = .ok () t' ∧
          ∀ bound, (setKey (bound + 1) k v).run t = .ok () t' := by
  have hWell := hReachable.wellFormed
  refine ⟨fun op x v hStore e t' hRun => ?_,
    fun k v t₁ hKey hFull hWithin => setKey_rebuilt hWell hKey hFull hWithin⟩
  have hLater (hSame : t.Untouched t') (hWell' : t'.WellFormed) (later : Operation)
      (w : Key × Value) (hWrite : later.write? t = some w) (hCell : t.HasCell w.1) :
      ∃ t'', later.change.run t' = .ok () t'' ∧ t'.Overwritten t'' w.1 w.2 := by
    rw [← hSame.sameShape.write?_eq hWell.toChained] at hWrite
    rw [← hSame.sameShape.hasCell_iff] at hCell
    exact later.run_of_hasCell hWell' hWrite hCell
  rw [Operation.run_store hStore] at hRun
  split at hRun
  next k hValue =>
    have hKey := Key.ofValue_ne_vacant hValue
    obtain ⟨rfl, rfl, hWell', hLarge, hFull, hRefused⟩ := setKey_refused hWell hKey hRun
    have hSame := Untouched.exhausted t
    exact ⟨Or.inr (Or.inr ⟨rfl, k, hValue, hLarge, hFull, hRefused⟩), hSame,
      ⟨hSame.get, hSame.getInt, hSame.getStr, hSame.getShortStr⟩, hLater hSame hWell'⟩
  next e' hValue =>
    cases hRun
    have hCause := Key.ofValue_eq_error hValue
    exact ⟨hCause.imp_right Or.inl, .refl t, ⟨rfl, rfl, rfl, rfl⟩, hLater (.refl t) hWell⟩

/-! ### Tables that cannot grow -/

/-- The integers below zero, downwards. -/
def belowZero (i : Nat) : Key := .int (Int64.ofInt (-(i + 1)))

theorem belowZero_same_iff {i j : Nat} (hi : i < twoPow 62) (hj : j < twoPow 62) :
    (belowZero i).same (belowZero j) = true ↔ i = j := by
  have hWords : twoPow 62 = 4611686018427387904 := by decide
  rw [belowZero, belowZero, Key.same_int_iff, Key.int.injEq, ← Int64.toInt_inj,
    Int64.toInt_ofInt_of_le (by omega) (by omega), Int64.toInt_ofInt_of_le (by omega) (by omega)]
  omega

/-- As many keys below zero as one likes are different keys. There are far more of them than a table
has buckets. -/
theorem apart_belowZero {count : Nat} (hCount : count < twoPow 62) :
    Key.Apart ((List.range count).map belowZero) := by
  rw [Key.Apart, List.pairwise_map]
  refine List.pairwise_lt_range.imp_of_mem fun {i j} hi hj hLt => ?_
  rw [List.mem_range] at hi hj
  rw [Bool.eq_false_iff, Ne, belowZero_same_iff (by omega) (by omega)]
  omega

/-- The keys below zero are in the hash part. -/
theorem liveNode_of_held_belowZero (hWell : t.WellFormed) {i : Nat} (hi : i < twoPow 62)
    (hHeld : (t.held? (belowZero i)).isSome = true) :
    ∃ l ∈ t.liveNodes.map (·.key), l.same (belowZero i) = true := by
  obtain ⟨l, hl, hSame⟩ := (mem_liveKeys_iff hWell.toChained _).mpr hHeld
  rw [liveKeys_eq, List.mem_append] at hl
  refine ⟨l, hl.resolve_left fun hSlot => ?_, hSame⟩
  obtain ⟨m, hm, rfl⟩ := List.mem_map.mp hSlot
  have hFirst := t.liveIndices_pos m hm
  have hLast := Nat.le_trans (t.liveIndices_le m hm) hWell.slots
  have hSlots : twoPow Limits.arrayBits = 2147483648 := by decide
  have hWords : twoPow 62 = 4611686018427387904 := by decide
  rw [belowZero, Key.same_int_iff, Key.int.injEq, ← Int64.toInt_inj,
    Int64.toInt_ofNat_of_lt (by omega), Int64.toInt_ofInt_of_le (by omega) (by omega)] at hSame
  omega

/-- A table holds no more keys below zero than it may have buckets. None of them ever gets a slot.
-/
theorem le_of_held_belowZero (hWell : t.WellFormed) {count : Nat} (hCount : count < twoPow 62)
    (hHeld : ∀ i < count, (t.held? (belowZero i)).isSome = true) :
    count ≤ twoPow Limits.hashBits := by
  have hCovered : ∀ k ∈ (List.range count).map belowZero,
      ∃ l ∈ t.liveNodes.map (·.key), l.same k = true := by
    intro k hk
    obtain ⟨i, hi, rfl⟩ := List.mem_map.mp hk
    rw [List.mem_range] at hi
    exact liveNode_of_held_belowZero hWell (by omega) (hHeld i hi)
  have hLe := (apart_belowZero hCount).length_le hCovered
  rw [List.length_map, List.length_range, List.length_map] at hLe
  obtain ⟨bits, hBits, hBuckets⟩ := hWell.buckets
  calc count ≤ t.liveNodes.length := hLe
    _ ≤ t.bucketCount := List.length_filter_le ..
    _ ≤ twoPow Limits.hashBits := hBuckets ▸ twoPow_le_twoPow hBits

/-- Keys below zero can be stored until one of them is refused. The induction is on their number,
and only the one that comes next is stored. -/
theorem stored_or_refused (count : Nat) :
    (∃ t : Table, t.Reachable ∧ ∀ i < count, (t.held? (belowZero i)).isSome = true) ∨
      ∃ i t t', t.Reachable ∧
        (setInt (Int64.ofInt (-((i : Nat) + 1))) (.bool true)).run t = .error .outOfMemory t' := by
  induction count with
  | zero => exact Or.inl ⟨_, .new none, fun i hi => absurd hi (Nat.not_lt_zero i)⟩
  | succ count ih =>
      rcases ih with ⟨t, hReachable, hHeld⟩ | hRefused
      · have hWell := hReachable.wellFormed
        rcases (Operation.setInt (Int64.ofInt (-(count + 1))) (.bool true)).change_cases hWell with
          ⟨t', hRun, hStored⟩ | ⟨t', _, hRun⟩ | ⟨_, _, _, hOp, _⟩
        · refine Or.inl ⟨t', hReachable.of_ok hRun, fun i hi => ?_⟩
          rw [hStored.entry]
          split
          next => rfl
          next hOther =>
            have hNe : i ≠ count := by
              rintro rfl
              exact hOther ((Key.same_self_iff _).mpr (by simp))
            exact hHeld i (by omega)
        · exact Or.inr ⟨count, t, t', hReachable, hRun⟩
        · cases hOp
      · exact Or.inr hRefused

/-- There is no room for one key more than there are buckets, so some table refuses one. -/
theorem exists_refused : ∃ n t t', t.Reachable ∧
    (setInt n (.bool true)).run t = .error .outOfMemory t' := by
  rcases stored_or_refused (twoPow Limits.hashBits + 1) with ⟨t, hReachable, hHeld⟩ | ⟨_, t, t', hRefused⟩
  · have hLe := le_of_held_belowZero hReachable.wellFormed (by decide) hHeld
    omega
  · exact ⟨_, t, t', hRefused⟩

/-- A store under nil, after which a string is written, and a store for which there is no room. -/
theorem refused_store_atomic_full :
    (∃ t t' : Table, t.Reachable ∧ (set .nil (.int 2)).run t = .error .nilKey t ∧
      (setStr ⟨0, 0, [102]⟩ (.int 3)).run t = .ok () t' ∧ t'.getStr ⟨0, 0, [102]⟩ = .int 3) ∧
    ∃ n t t', t.Reachable ∧ (setInt n (.bool true)).run t = .error .outOfMemory t' ∧
      t.NeedsTooMany (.int n) ∧ t.Untouched t' ∧ t'.getInt = t.getInt := by
  constructor
  · have hReachable := Reachable.new none |>.step (.setStr ⟨0, 0, [102]⟩ (.int 1))
    obtain ⟨_, _, _, hLater⟩ :=
      (refused_store_atomic hReachable).1 (.set .nil (.int 2)) .nil (.int 2) rfl .nilKey _ rfl
    obtain ⟨t', hRun, hDone⟩ := hLater (.setStr ⟨0, 0, [102]⟩ (.int 3)) _ rfl (Or.inr ⟨0, by decide⟩)
    have hHeld : (t'.getNode (.str ⟨0, 0, [102]⟩)).nonNil? = some (.int 3) :=
      hDone.stored.entry (.str ⟨0, 0, [102]⟩)
    rw [← getStr_eq] at hHeld
    exact ⟨_, t', hReachable, rfl, hRun, ((Value.nonNil?_eq_some_iff _ _).mp hHeld).1⟩
  · obtain ⟨n, t, t', hReachable, hRun⟩ := exists_refused
    obtain ⟨hCause, hSame, ⟨_, hReads, _⟩, _⟩ :=
      (refused_store_atomic hReachable).1 (.setInt n (.bool true)) (.int n) (.bool true) rfl _ t' hRun
    rcases hCause with ⟨hNil, _⟩ | ⟨hNaN, _⟩ | ⟨_, k, hKey, hLarge, _⟩
    · cases hNil
    · cases hNaN
    · cases hKey
      exact ⟨n, t, t', hReachable, hRun, hLarge, hSame, hReads⟩

end Table

end TaggedRuntime
