import TaggedRuntime.Proofs.Table.Census
import TaggedRuntime.Proofs.Table.Operation

/-! Resizing to arbitrary sizes. The entries that are stored again meet a table that holds some of
them already and nothing else, so a rebuild that one of them asks for needs no more buckets than
there are entries. -/

namespace TaggedRuntime

namespace Table

variable {t s : Table} {k : Key} {v : Value}

/-! ### Stores into a table of few entries -/

/-- A table without a key that another one holds has fewer entries, if the other one also holds
whatever it holds. The key that is new to the one is live in the other, and all others are live in
both. -/
theorem length_liveKeys_lt (hs : s.Chained) (ht : t.Chained)
    (hWithin : ∀ l, (s.held? l).isSome = true → (t.held? l).isSome = true)
    (hHeld : (t.held? k).isSome = true) (hNew : s.Insertable k) :
    s.liveKeys.length < t.liveKeys.length := by
  have hLength : (s.liveKeys ++ [k]).length = s.liveKeys.length + 1 := by simp
  rw [← Nat.succ_le_iff, Nat.succ_eq_add_one, ← hLength]
  refine (hNew.apart_liveKeys hs).length_le fun l hl => (mem_liveKeys_iff ht l).mpr ?_
  rcases List.mem_append.mp hl with hOld | hAdded
  · obtain ⟨e, he, rfl⟩ := List.mem_map.mp hOld
    apply hWithin
    rw [(held?_of_mem_displaced hs he).2]
    rfl
  · rw [List.mem_singleton.mp hAdded]
    exact hHeld

/-- A rebuild for a new key asks for no more buckets than there are entries, the new one among
them. -/
theorem sizesWith_snd_le (hSlots : t.arrayLimit ≤ twoPow Limits.arrayBits) (k : Key) :
    (t.sizesWith k).2 ≤ t.liveKeys.length + 1 := by
  rw [sizesWith_demand hSlots]
  exact Nat.le_trans List.countP_le_length (by simp)

/-- A store is refused only in a table of very many entries. The count is asked for only where the
key is new. -/
theorem setKey_of_few (hWell : t.WellFormed) (hKey : k ≠ .vacant)
    (hFew : t.Insertable k → t.liveKeys.length < twoPow Limits.hashBits) (rebuilds : Nat)
    (v : Value) : ∃ t', (setKey (rebuilds + 1) k v).run t = .ok () t' ∧ t.Stored t' k v := by
  rcases setKeyWith_cases hWell hKey
      (fun k v => do rehash (setKey rebuilds) k; setKey rebuilds k v) v with
    ⟨t', hRun, hSettled⟩ | ⟨_, hExhausted, hNew, _, hRun⟩
  · exact ⟨t', hRun, hSettled.toStored⟩
  · have hHash : ceilLog2 (t.exhausted.sizesWith k).2 ≤ Limits.hashBits :=
      (ceilLog2_le_iff _ _).mpr (Nat.le_trans (sizesWith_snd_le hWell.slots k) (hFew hNew))
    obtain ⟨t₁, hGrown, hSame, hRoom, _⟩ := rehash_grown (stores_setKey rebuilds) hExhausted hHash
    obtain ⟨t', hStored, _⟩ := setKey_settled hSame.wellFormed hKey hRoom rebuilds v
    rw [growth_run, hGrown] at hRun
    have hDone := hRun.trans hStored
    exact ⟨t', hDone, stores_setKey (rebuilds + 1) t k v hWell hKey t' hDone⟩

/-- The entries of a table are stored again, into a table that holds nothing else. None is refused,
because the table that they come from has few enough. -/
theorem forM_setKey_of_few (ht : t.Chained) (hFew : t.liveKeys.length ≤ twoPow Limits.hashBits)
    (entries : List (Key × Value))
    (hHeld : ∀ e ∈ entries, e.1 ≠ .vacant ∧ t.held? e.1 = some e.2) (hWell : s.WellFormed)
    (hWithin : ∀ l, (s.held? l).isSome = true → (t.held? l).isSome = true) :
    ∃ s', (entries.forM fun e => setKey 1 e.1 e.2).run s = .ok () s' := by
  induction entries generalizing s with
  | nil => exact ⟨s, rfl⟩
  | cons e rest ih =>
      obtain ⟨hKey, hEntry⟩ := hHeld e List.mem_cons_self
      have hIn : (t.held? e.1).isSome = true := by
        rw [hEntry]
        rfl
      obtain ⟨s₁, hRun, hStored⟩ := setKey_of_few hWell hKey (fun hNew =>
        Nat.lt_of_lt_of_le (length_liveKeys_lt hWell.toChained ht hWithin hIn hNew) hFew) 0 e.2
      rw [forM_cons_run, hRun]
      refine ih (fun d hd => hHeld d (List.mem_cons_of_mem _ hd)) hStored.wellFormed fun l hl => ?_
      rw [hStored.entry] at hl
      split at hl
      next hSame => rwa [← held?_eq_of_same ht hSame]
      next => exact hWithin l hl

/-! ### Resizing -/

/-- A resize within the limits is carried out, whatever the sizes. It may need rebuilds on the way
if the sizes are too small, and then the parts are larger than it was asked for. -/
theorem resize_of_few (hWell : t.WellFormed) (hFew : t.liveKeys.length ≤ twoPow Limits.hashBits)
    {arraySize hashSize : Nat} (hArray : arraySize ≤ twoPow Limits.arrayBits)
    (hHash : hashSize ≤ twoPow Limits.hashBits) :
    ∃ t', (resize arraySize hashSize).run t = .ok () t' ∧ t.SameEntries t' := by
  have hLog := (ceilLog2_le_iff _ _).mpr hHash
  obtain ⟨t', hRun⟩ := forM_setKey_of_few hWell.toChained hFew (t.displaced arraySize)
    (fun e he => held?_of_mem_displaced hWell.toChained he)
    (s := t.cleared arraySize hashSize) (wellFormed_cleared hArray hLog) (fun l hl => by
      obtain ⟨v, hv⟩ := Option.isSome_iff_exists.mp hl
      rw [held?_of_cleared hWell.slots hArray hv]
      rfl)
  refine ⟨t', ?_, sameEntries_of_forM (stores_setKey 1) hArray hLog hWell hRun⟩
  rw [resize, resizeWith_run, if_neg (not_or.mpr ⟨Nat.not_lt.mpr hArray, Nat.not_lt.mpr hLog⟩)]
  exact hRun

/-- Look-ups of any kind answer alike in both tables: with the same value, or with a nil in
both. -/
structure SameReads (t t' : Table) : Prop where
  get : ∀ k, (t'.get k).nonNil? = (t.get k).nonNil?
  getInt : ∀ n, (t'.getInt n).nonNil? = (t.getInt n).nonNil?
  getStr : ∀ s, (t'.getStr s).nonNil? = (t.getStr s).nonNil?
  getShortStr : ∀ s, s.isShort = true → (t'.getShortStr s).nonNil? = (t.getShortStr s).nonNil?

/-- Tables with the same entries answer all look-ups alike, by key, integer and string. -/
theorem SameEntries.sameReads {t' : Table} (hSame : t.SameEntries t') : t.SameReads t' where
  get k := by
    cases hKey : Key.ofValue k with
    | ok key =>
        rw [get_eq hKey, get_eq hKey]
        exact hSame.entry key
    | error e =>
        unfold Table.get
        rw [hKey]
  getInt n := hSame.entry (.int n)
  getStr s := by
    rw [getStr_eq, getStr_eq]
    exact hSame.entry (.str s)
  getShortStr s hShort := by
    rw [getShortStr_eq hShort, getShortStr_eq hShort]
    exact hSame.entry (.str s)

end Table

/-- An integer from one up to a size. -/
def Key.within (size : Nat) : Key → Bool
  | .int n => 1 ≤ n.toInt && n.toInt ≤ size
  | _ => false

namespace Table

/-- A key gets a slot if it is an integer within the size. -/
theorem fitsArray_eq_within {size : Nat} (hSize : size ≤ twoPow Limits.arrayBits) (k : Key) :
    fitsArray size k = k.within size := by
  cases k with
  | int n =>
      rw [fitsArray, Key.arrayCandidate?, Key.within, Bool.eq_iff_iff]
      simp only [Bool.and_eq_true, decide_eq_true_iff]
      split
      next hIn =>
        rw [Option.any_some, decide_eq_true_iff]
        omega
      next hOut =>
        simp only [Option.any_none, Bool.false_eq_true, false_iff]
        omega
  | _ => rfl

/-- A resize past the limits changes nothing. Any other keeps what every key reads, and gives the
parts the sizes that it is asked for if the hash part has room for all entries that have no
slot. -/
theorem resize_safe (hReachable : t.Reachable) (hFew : t.liveKeys.length ≤ twoPow Limits.hashBits)
    (arraySize hashSize : Nat) :
    (twoPow Limits.arrayBits < arraySize ∨ twoPow Limits.hashBits < hashSize →
      (resize arraySize hashSize).run t = .error .outOfMemory t) ∧
    (arraySize ≤ twoPow Limits.arrayBits → hashSize ≤ twoPow Limits.hashBits →
      ∃ t', (resize arraySize hashSize).run t = .ok () t' ∧ t.SameReads t' ∧
        ((t.liveKeys.countP fun k => !k.within arraySize) ≤ hashSize →
          t'.arrayLimit = arraySize ∧ LeastPower hashSize t'.bucketCount ∧
            (t'.isDummy = true ↔ hashSize = 0))) := by
  have hWell := hReachable.wellFormed
  refine ⟨fun hPast => ?_, fun hArray hHash => ?_⟩
  · rw [resize, resizeWith_run, if_pos]
    refine hPast.imp_right fun hHash => ?_
    rwa [← Nat.not_le, ceilLog2_le_iff, Nat.not_le]
  · obtain ⟨t', hRun, hSame⟩ := resize_of_few hWell hFew hArray hHash
    refine ⟨t', hRun, hSame.sameReads, fun hRoom => ?_⟩
    simp only [← fitsArray_eq_within hArray, ← unslotted_eq hWell.slots] at hRoom
    obtain ⟨t₁, hRun', _, hSizes⟩ := resize_roomy hWell hArray hHash hRoom
    rw [hRun] at hRun'
    cases hRun'
    refine ⟨hSizes.arrayLimit.trans (arrayLimit_cleared ..), ?_, ?_⟩
    · rw [hSizes.bucketCount, bucketCount_cleared]
      exact leastPower_ceilLog2 hashSize
    · rw [hSizes.dummy]
      simp [isDummy, cleared]

/-- A table of four entries whose parts are cut to one slot and four buckets. -/
theorem resize_safe_cut : ∃ t t' : Table, t.Reachable ∧ t.liveKeys.length = 4 ∧
    (resize 1 3).run t = .ok () t' ∧ t'.getInt 3 = .int 30 ∧ t'.arrayLimit = 1 ∧
    LeastPower 3 t'.bucketCount ∧ t'.isDummy = false := by
  have hReachable := Reachable.new none
    |>.step (.resize 4 0)
    |>.step (.setInt 1 (.int 10))
    |>.step (.setInt 2 (.int 20))
    |>.step (.setInt 3 (.int 30))
    |>.step (.setStr ⟨0, 0, [102]⟩ (.bool true))
  obtain ⟨t', hRun, hSame, hSizes⟩ := (resize_safe hReachable (by decide) 1 3).2 (by decide) (by decide)
  obtain ⟨hArray, hBuckets, hDummy⟩ := hSizes (by decide)
  refine ⟨_, t', hReachable, by decide, hRun, ?_, hArray, hBuckets, ?_⟩
  · have hOld : (Value.int 30).nonNil? = some (.int 30) := rfl
    exact ((Value.nonNil?_eq_some_iff _ _).mp ((hSame.getInt 3).trans hOld)).1
  · rw [← Bool.not_eq_true, hDummy]
    decide

end Table

end TaggedRuntime
