import TaggedRuntime.Proofs.Table.Clearing

/-! Rebuilds. A rebuild stores the displaced entries again, each at most once,
so all entries survive it. The sizes that a store asks for leave room for all
of them and for the new key, so the stores of a rebuild never ask for another
one. -/

namespace TaggedRuntime.Table

variable {t t₁ t' : Table} {k l : Key} {v : Value}

/-! ### Storing a list of entries -/

/-- A way to store that does what a store does whenever it succeeds. -/
def Stores (put : Key → Value → Store Unit) : Prop :=
  ∀ t k v, t.WellFormed → k ≠ .vacant → ∀ t', (put k v).run t = .ok () t' → t.Stored t' k v

/-- Entries are stored one after another, and the first refusal ends it. -/
theorem forM_cons_run (put : Key → Value → Store Unit) (e : Key × Value)
    (rest : List (Key × Value)) (t : Table) :
    ((e :: rest).forM fun e => put e.1 e.2).run t =
      match (put e.1 e.2).run t with
      | .ok _ t' => (rest.forM fun e => put e.1 e.2).run t'
      | .error e t' => .error e t' := by
  change ((put e.1 e.2) >>= fun _ => rest.forM fun e => put e.1 e.2).run t = _
  rw [EStateM.run_bind]
  cases (put e.1 e.2).run t <;> rfl

/-- Storing a list of entries leaves each key with the entry it had or with one from the list. The
induction is on the list, and later entries count over earlier ones of the same key. -/
theorem forM_stored {put : Key → Value → Store Unit} (hPut : Stores put)
    (entries : List (Key × Value)) (hKeys : ∀ e ∈ entries, e.1 ≠ .vacant) (hWell : t.WellFormed)
    (hRun : (entries.forM fun e => put e.1 e.2).run t = .ok () t') :
    t'.WellFormed ∧ ∀ l, (t'.held? l = t.held? l ∧ ∀ e ∈ entries, e.1.same l = false) ∨
      ∃ e ∈ entries, e.1.same l = true ∧ t'.held? l = e.2.nonNil? := by
  induction entries generalizing t with
  | nil =>
      cases hRun
      exact ⟨hWell, fun l => Or.inl ⟨rfl, by simp⟩⟩
  | cons e rest ih =>
      rw [forM_cons_run] at hRun
      split at hRun
      next t₁ hStep =>
        have hStored := hPut t e.1 e.2 hWell (hKeys e List.mem_cons_self) t₁ hStep
        obtain ⟨hWell', hEntry⟩ := ih (fun d hd => hKeys d (List.mem_cons_of_mem _ hd))
          hStored.wellFormed hRun
        refine ⟨hWell', fun l => ?_⟩
        rcases hEntry l with ⟨hKept, hOthers⟩ | ⟨d, hd, hSame, hLater⟩
        · rw [hStored.entry] at hKept
          by_cases hSame : e.1.same l = true
          · rw [if_pos hSame] at hKept
            exact Or.inr ⟨e, List.mem_cons_self, hSame, hKept⟩
          · rw [if_neg hSame] at hKept
            refine Or.inl ⟨hKept, fun d hd => ?_⟩
            rcases List.mem_cons.mp hd with rfl | hRest
            · simpa using hSame
            · exact hOthers d hRest
        · exact Or.inr ⟨d, List.mem_cons_of_mem _ hd, hSame, hLater⟩
      next => cases hRun

/-! ### Rebuilding -/

/-- A rebuild checks its sizes first. What it stores entries with is open here, so this equation
holds for stores that may rebuild and for those that may not. -/
theorem resizeWith_run (put : Key → Value → Store Unit) (arraySize hashSize : Nat) (t : Table) :
    (resizeWith put arraySize hashSize).run t =
      if twoPow Limits.arrayBits < arraySize ∨ Limits.hashBits < ceilLog2 hashSize then
        .error .outOfMemory t
      else
        ((t.displaced arraySize).forM fun e => put e.1 e.2).run (t.cleared arraySize hashSize) := by
  by_cases hArray : twoPow Limits.arrayBits < arraySize
  · simp [resizeWith, hArray]
  · by_cases hHash : Limits.hashBits < ceilLog2 hashSize
    · simp [resizeWith, hArray, hHash]
    · rw [if_neg (not_or.mpr ⟨hArray, hHash⟩)]
      simp only [resizeWith, hArray, hHash, if_false]
      rfl

/-- A table with the entries of another, whatever its parts look like. -/
structure SameEntries (t t' : Table) : Prop where
  wellFormed : t'.WellFormed
  entry : ∀ l, t'.held? l = t.held? l

/-- A rebuild loses no entry and makes none up. The displaced entries are all that the cleared table
does not hold any more, and no two of them have one key. -/
theorem sameEntries_of_forM {put : Key → Value → Store Unit} (hPut : Stores put)
    {arraySize hashSize : Nat} (hArray : arraySize ≤ twoPow Limits.arrayBits)
    (hHash : ceilLog2 hashSize ≤ Limits.hashBits) (hWell : t.WellFormed)
    (hRun : ((t.displaced arraySize).forM fun e => put e.1 e.2).run
      (t.cleared arraySize hashSize) = .ok () t') : t.SameEntries t' := by
  obtain ⟨hWell', hEntry⟩ := forM_stored hPut _
    (fun e he => (held?_of_mem_displaced hWell.toChained he).1)
    (wellFormed_cleared hArray hHash) hRun
  refine ⟨hWell', fun l => ?_⟩
  rcases hEntry l with ⟨hKept, hOthers⟩ | ⟨e, he, hSame, hAgain⟩
  · rw [hKept]
    cases hOld : t.held? l with
    | none =>
        cases hNew : (t.cleared arraySize hashSize).held? l with
        | none => rfl
        | some v =>
            rw [held?_of_cleared hWell.slots hArray hNew] at hOld
            cases hOld
    | some v =>
        rcases mem_displaced_of_held? hWell.toChained arraySize hOld with
          ⟨i, hi, hSlot⟩ | ⟨e, he, hSame⟩
        · rw [held?_cleared hWell.slots hArray hSlot hi, hOld]
        · rw [hOthers e he] at hSame
          cases hSame
  · obtain ⟨_, hHeld⟩ := held?_of_mem_displaced hWell.toChained he
    obtain ⟨_, hLive⟩ := (Value.nonNil?_eq_some_iff _ _).mp hHeld
    rw [hAgain, ← held?_eq_of_same hWell.toChained hSame, hHeld, Value.nonNil?_eq_some_iff]
    exact ⟨rfl, hLive⟩

/-! ### Rebuilds with room for all entries -/

/-- There is a place for a key, whether the table holds it or not. -/
def HasRoom (t : Table) (k : Key) : Prop := (t.slot? k).isSome = true ∨ t.occupied < t.capacity

/-- A store for which there is room starts no rebuild. So the bound on rebuilds does not matter to
it. -/
theorem setKey_settled (hWell : t.WellFormed) (hKey : k ≠ .vacant) (hRoom : t.HasRoom k)
    (rebuilds : Nat) (v : Value) :
    ∃ t', (setKey rebuilds k v).run t = .ok () t' ∧ t.Settled t' k v := by
  have hCases (grow : Key → Value → Store Unit) :
      ∃ t', (setKeyWith grow k v).run t = .ok () t' ∧ t.Settled t' k v := by
    rcases setKeyWith_cases hWell hKey grow v with hDone | ⟨hFull, _, hNew, _⟩
    · exact hDone
    · rcases hRoom with hSlot | hFree
      · rw [hNew.slotless] at hSlot
        cases hSlot
      · omega
  cases rebuilds with
  | zero => exact hCases _
  | succ rebuilds => exact hCases _

theorem SameSizes.slot?_eq (h : t.SameSizes t') (k : Key) : t'.slot? k = t.slot? k := by
  have hSize : t'.array.size = t.array.size := h.arrayLimit
  cases k <;> simp [slot?, arrayIndex?, hSize]

theorem SameSizes.capacity_eq (h : t.SameSizes t') : t'.capacity = t.capacity := by
  simp [capacity, h.dummy, h.bucketCount]

/-- Storing entries for which there is room starts no rebuild. Room for all of them at the start is
enough, since each takes one bucket at most. The induction is on the entries. -/
theorem forM_settled (rebuilds : Nat) (entries : List (Key × Value))
    (hKeys : ∀ e ∈ entries, e.1 ≠ .vacant) (hWell : t.WellFormed)
    (hRoom : t.occupied + entries.countP (fun e => (t.slot? e.1).isNone) ≤ t.capacity) :
    ∃ t', (entries.forM fun e => setKey rebuilds e.1 e.2).run t = .ok () t' ∧ t.SameSizes t' ∧
      t'.occupied ≤ t.occupied + entries.countP fun e => (t.slot? e.1).isNone := by
  induction entries generalizing t with
  | nil => exact ⟨t, rfl, ⟨rfl, rfl, rfl⟩, Nat.le_refl _⟩
  | cons e rest ih =>
      rw [List.countP_cons] at hRoom ⊢
      have hPlace : t.HasRoom e.1 := by
        unfold HasRoom
        cases hSlot : t.slot? e.1 with
        | some i => exact Or.inl rfl
        | none =>
            simp only [hSlot, Option.isNone_none, if_true] at hRoom
            exact Or.inr (by omega)
      obtain ⟨t₁, hStep, hSettled⟩ :=
        setKey_settled hWell (hKeys e List.mem_cons_self) hPlace rebuilds e.2
      have hSizes := hSettled.sizes
      have hFills : t₁.occupied ≤ t.occupied + if (t.slot? e.1).isNone then 1 else 0 := by
        have h := hSettled.fills
        cases hSlot : t.slot? e.1 <;> simpa [hSlot] using h
      obtain ⟨t₂, hRest, hSizes', hFills'⟩ := ih (t := t₁)
        (fun d hd => hKeys d (List.mem_cons_of_mem _ hd)) hSettled.wellFormed (by
          simp only [hSizes.slot?_eq, hSizes.capacity_eq]
          omega)
      simp only [hSizes.slot?_eq] at hFills'
      refine ⟨t₂, ?_, hSizes.trans hSizes', by omega⟩
      rw [forM_cons_run, hStep]
      exact hRest

/-- Counting behind a cut is counting the indices from it on. -/
theorem countP_zipIdx_drop (values : List Value) (start size : Nat) :
    (((values.drop size).zipIdx (start + size)).countP fun e => !e.1.isNil) =
      (values.zipIdx start).countP fun e => !e.1.isNil && decide (start + size ≤ e.2) := by
  induction values generalizing start size with
  | nil => simp
  | cons v rest ih =>
      cases size with
      | zero =>
          rw [List.drop_zero]
          apply List.countP_congr
          intro e he
          have hStart : start ≤ e.2 := List.le_snd_of_mem_zipIdx he
          simp [hStart]
      | succ size =>
          have hShift : start + (size + 1) = start + 1 + size := by omega
          rw [List.drop_succ_cons, hShift, ih, List.zipIdx_cons, List.countP_cons]
          simp
          omega

/-- The entries behind a cut are the live ones of the array part past it. -/
theorem countP_behind (t : Table) (arraySize : Nat) :
    (((t.array.toList.drop arraySize).zipIdx (arraySize + 1)).filterMap
      fun (e : Value × Nat) =>
        if e.1.isNil then none else some (Key.int (Int64.ofNat e.2), e.1)).length =
      t.liveIndices.countP (arraySize < ·) := by
  rw [liveIndices, List.countP_filterMap, List.length_filterMap_eq_countP]
  have hBehind := countP_zipIdx_drop t.array.toList 1 arraySize
  rw [Nat.add_comm 1] at hBehind
  calc
    _ = ((t.array.toList.drop arraySize).zipIdx (arraySize + 1)).countP fun e => !e.1.isNil := by
      apply List.countP_congr
      intro e _
      cases e.1.isNil <;> simp
    _ = _ := hBehind
    _ = _ := by
      apply List.countP_congr
      intro e _
      have hPast : decide (arraySize + 1 ≤ e.2) = decide (arraySize < e.2) := rfl
      rw [hPast]
      cases hNil : e.1.isNil <;> simp [hNil]

/-- How many live entries have no slot in an array part of a size. -/
def unslotted (t : Table) (arraySize : Nat) : Nat :=
  t.liveIndices.countP (arraySize < ·) +
    (t.liveNodes.map (·.key)).countP fun k => !fitsArray arraySize k

/-- Of the entries that are stored again, no more need a bucket. -/
theorem countP_displaced_le (t : Table) (arraySize : Nat) :
    ((t.displaced arraySize).countP fun e => !fitsArray arraySize e.1) ≤ t.unslotted arraySize := by
  have hNodes : (t.liveNodes.map fun node => (node.key, node.value)).countP
      (fun e => !fitsArray arraySize e.1) =
        (t.liveNodes.map (·.key)).countP fun k => !fitsArray arraySize k := by
    simp only [List.countP_map]
    rfl
  rw [displaced, List.countP_append, hNodes, unslotted, ← countP_behind]
  exact Nat.add_le_add_right List.countP_le_length _

/-- Which keys get no slot in a cleared table is known from the size alone. -/
theorem isNone_slot?_cleared {arraySize : Nat} (hArray : arraySize ≤ twoPow Limits.arrayBits)
    (t : Table) (hashSize : Nat) (k : Key) :
    ((t.cleared arraySize hashSize).slot? k).isNone = !fitsArray arraySize k := by
  have hSlots : (t.cleared arraySize hashSize).arrayLimit ≤ twoPow Limits.arrayBits := by
    rwa [arrayLimit_cleared]
  rw [← Option.not_isSome, slot?_isSome hSlots, arrayLimit_cleared]

/-- The table that waits for its entries in a rebuild for a new key. -/
def emptied (t : Table) (k : Key) : Table := t.cleared (t.sizesWith k).1 (t.sizesWith k).2

theorem isNone_slot?_emptied (t : Table) (k l : Key) :
    ((t.emptied k).slot? l).isNone = !fitsArray (t.sizesWith k).1 l :=
  isNone_slot?_cleared (t.sizesWith_fst_le k) t _ l

/-- A rebuild for a new key asks for a bucket for it and for each entry without a slot. -/
theorem sizesWith_unslotted (t : Table) (k : Key) : (t.sizesWith k).2 =
    t.unslotted (t.sizesWith k).1 + if !fitsArray (t.sizesWith k).1 k then 1 else 0 := by
  rw [sizesWith_snd, List.countP_append, List.countP_singleton, ← Nat.add_assoc, unslotted]

/-- A rebuild for a new key makes room for all entries that are stored again,
and for that key. -/
theorem demand_le_capacity (t : Table) (k : Key) :
    ((t.displaced (t.sizesWith k).1).countP fun e => ((t.emptied k).slot? e.1).isNone) +
      (if ((t.emptied k).slot? k).isNone then 1 else 0) ≤ (t.emptied k).capacity := by
  simp only [isNone_slot?_emptied]
  calc
    _ ≤ t.unslotted (t.sizesWith k).1 + if !fitsArray (t.sizesWith k).1 k then 1 else 0 :=
      Nat.add_le_add_right (t.countP_displaced_le _) _
    _ = (t.sizesWith k).2 := (t.sizesWith_unslotted k).symm
    _ ≤ (t.emptied k).capacity := hashSize_le_capacity_cleared t _ _

/-- A rebuild for a new key is one to the sizes that were computed for it. -/
theorem rehash_run (put : Key → Value → Store Unit) (k : Key) (t : Table) :
    (rehash put k).run t = (resizeWith put (t.sizesWith k).1 (t.sizesWith k).2).run t := rfl

/-- A rebuild for a new key that needs too many buckets changes nothing. -/
theorem rehash_of_lt (put : Key → Value → Store Unit)
    (hHash : Limits.hashBits < ceilLog2 (t.sizesWith k).2) :
    (rehash put k).run t = .error .outOfMemory t := by
  rw [rehash_run, resizeWith_run, if_pos (Or.inr hHash)]

/-- A rebuild within the limits stores the displaced entries into the emptied table. -/
theorem rehash_of_le (put : Key → Value → Store Unit)
    (hHash : ceilLog2 (t.sizesWith k).2 ≤ Limits.hashBits) : (rehash put k).run t =
      ((t.displaced (t.sizesWith k).1).forM fun e => put e.1 e.2).run (t.emptied k) := by
  rw [rehash_run, resizeWith_run, if_neg]
  · rfl
  · exact not_or.mpr ⟨Nat.not_lt.mpr (t.sizesWith_fst_le k), Nat.not_lt.mpr hHash⟩

/-- A rebuild for a new key within the limits keeps the entries and makes room for the key. The
parts have the sizes that were computed for it. -/
theorem rehash_grown {rebuilds : Nat} (hPut : Stores (setKey rebuilds)) (hWell : t.WellFormed)
    (hHash : ceilLog2 (t.sizesWith k).2 ≤ Limits.hashBits) :
    ∃ t', (rehash (setKey rebuilds) k).run t = .ok () t' ∧ t.SameEntries t' ∧ t'.HasRoom k ∧
      (t.emptied k).SameSizes t' := by
  rw [rehash_of_le _ hHash]
  have hArray := t.sizesWith_fst_le k
  have hDemand := t.demand_le_capacity k
  have hNone : (t.emptied k).occupied = 0 := occupied_cleared t _ _
  have hCleared : (t.emptied k).WellFormed := wellFormed_cleared hArray hHash
  obtain ⟨t', hRun, hSizes, hFills⟩ := forM_settled rebuilds (t.displaced (t.sizesWith k).1)
    (fun e he => (held?_of_mem_displaced hWell.toChained he).1) hCleared (by omega)
  refine ⟨t', hRun, sameEntries_of_forM hPut hArray hHash hWell hRun, ?_, hSizes⟩
  unfold HasRoom
  rw [hSizes.slot?_eq, hSizes.capacity_eq]
  cases hSlot : (t.emptied k).slot? k with
  | some i => exact Or.inl rfl
  | none =>
      simp only [hSlot, Option.isNone_none, if_true] at hDemand
      exact Or.inr (by omega)

/-- A rebuild is refused and changes nothing, or it keeps all entries and has room for the key that
it is for. -/
theorem rehash_cases {rebuilds : Nat} (hPut : Stores (setKey rebuilds)) (hWell : t.WellFormed)
    (k : Key) :
    (rehash (setKey rebuilds) k).run t = .error .outOfMemory t ∨
      ∃ t', (rehash (setKey rebuilds) k).run t = .ok () t' ∧ t.SameEntries t' ∧ t'.HasRoom k := by
  rcases Nat.lt_or_ge Limits.hashBits (ceilLog2 (t.sizesWith k).2) with hLarge | hWithin
  · exact Or.inl (rehash_of_lt _ hLarge)
  · obtain ⟨t', hRun, hSame, hRoom, _⟩ := rehash_grown hPut hWell hWithin
    exact Or.inr ⟨t', hRun, hSame, hRoom⟩

theorem SameEntries.stored (hSame : t.SameEntries t₁) (h : t₁.Stored t' k v) : t.Stored t' k v where
  wellFormed := h.wellFormed
  entry l := by rw [h.entry, hSame.entry]

/-! ### Stores that may rebuild -/

theorem growth_run (rebuilds : Nat) (k : Key) (v : Value) (t : Table) :
    (do rehash (setKey rebuilds) k; setKey rebuilds k v : Store Unit).run t =
      match (rehash (setKey rebuilds) k).run t with
      | .ok _ t' => (setKey rebuilds k v).run t'
      | .error e t' => .error e t' := by
  rw [EStateM.run_bind]
  cases (rehash (setKey rebuilds) k).run t <;> rfl

/-- A store that may rebuild once does what a store does, or finds the rebuild
refused. It never asks for another rebuild. -/
theorem setKey_succ_cases {rebuilds : Nat} (hPut : Stores (setKey rebuilds)) (hWell : t.WellFormed)
    (hKey : k ≠ .vacant) (v : Value) :
    (∃ t', (setKey (rebuilds + 1) k v).run t = .ok () t' ∧ t.Stored t' k v) ∨
      (t.exhausted.WellFormed ∧
        (setKey (rebuilds + 1) k v).run t = .error .outOfMemory t.exhausted) := by
  rcases setKeyWith_cases hWell hKey
      (fun k v => do rehash (setKey rebuilds) k; setKey rebuilds k v) v with
    ⟨t', hRun, hSettled⟩ | ⟨_, hExhausted, _, _, hRun⟩
  · exact Or.inl ⟨t', hRun, hSettled.toStored⟩
  · have hSame : t.SameEntries t.exhausted :=
      ⟨hExhausted, fun l => by rw [exhausted, held?_withLastFree]⟩
    rw [growth_run] at hRun
    rcases rehash_cases hPut hExhausted k with hRefused | ⟨t₁, hGrown, hKept, hRoom⟩
    · rw [hRefused] at hRun
      exact Or.inr ⟨hExhausted, hRun⟩
    · obtain ⟨t', hStored, hSettled⟩ := setKey_settled hKept.wellFormed hKey hRoom rebuilds v
      rw [hGrown] at hRun
      refine Or.inl ⟨t', hRun.trans hStored, ?_⟩
      exact hSame.stored (hKept.stored hSettled.toStored)

/-- With any bound on rebuilds, a store ends with its entry in place or out of memory. The induction
is on the bound. -/
theorem stores_setKey (rebuilds : Nat) : Stores (setKey rebuilds) := by
  induction rebuilds with
  | zero =>
      intro t k v hWell hKey t' hRun
      rcases setKeyWith_cases hWell hKey (fun _ _ => throw .unsettled) v with
        ⟨t₁, hDone, hSettled⟩ | ⟨_, _, _, _, hStuck⟩
      · rw [setKey, hDone, EStateM.Result.ok.injEq] at hRun
        exact hRun.2 ▸ hSettled.toStored
      · rw [setKey, hStuck] at hRun
        cases hRun
  | succ rebuilds ih =>
      intro t k v hWell hKey t' hRun
      rcases setKey_succ_cases ih hWell hKey v with ⟨t₁, hDone, hStored⟩ | ⟨_, hRefused⟩
      · rw [hDone, EStateM.Result.ok.injEq] at hRun
        exact hRun.2 ▸ hStored
      · rw [hRefused] at hRun
        cases hRun

/-- A store under a key ends with the entry in place, or out of memory. -/
theorem setKey_cases (hWell : t.WellFormed) (hKey : k ≠ .vacant) (rebuilds : Nat) (v : Value) :
    (∃ t', (setKey (rebuilds + 1) k v).run t = .ok () t' ∧ t.Stored t' k v) ∨
      (t.exhausted.WellFormed ∧
        (setKey (rebuilds + 1) k v).run t = .error .outOfMemory t.exhausted) :=
  setKey_succ_cases (stores_setKey rebuilds) hWell hKey v

/-! ### Resizing -/

/-- Storing a list of entries ends, at worst out of memory. One rebuild is allowed to each of them,
and the induction is on the list. -/
theorem forM_setKey_cases (rebuilds : Nat) (entries : List (Key × Value))
    (hKeys : ∀ e ∈ entries, e.1 ≠ .vacant) (hWell : t.WellFormed) :
    (∃ t', (entries.forM fun e => setKey (rebuilds + 1) e.1 e.2).run t = .ok () t') ∨
      ∃ t', t'.WellFormed ∧
        (entries.forM fun e => setKey (rebuilds + 1) e.1 e.2).run t = .error .outOfMemory t' := by
  induction entries generalizing t with
  | nil => exact Or.inl ⟨t, rfl⟩
  | cons e rest ih =>
      rw [forM_cons_run]
      rcases setKey_cases hWell (hKeys e List.mem_cons_self) rebuilds e.2 with
        ⟨t', hDone, hStored⟩ | ⟨hExhausted, hRefused⟩
      · rw [hDone]
        exact ih (fun d hd => hKeys d (List.mem_cons_of_mem _ hd)) hStored.wellFormed
      · rw [hRefused]
        exact Or.inr ⟨t.exhausted, hExhausted, rfl⟩

/-- Resizing keeps all entries, whatever the sizes, or runs out of memory. Refused halfway it leaves
a table that is well-formed, though it may have lost entries. -/
theorem resize_cases (hWell : t.WellFormed) (arraySize hashSize : Nat) :
    (∃ t', (resize arraySize hashSize).run t = .ok () t' ∧ t.SameEntries t') ∨
      ∃ t', t'.WellFormed ∧ (resize arraySize hashSize).run t = .error .outOfMemory t' := by
  rw [resize, resizeWith_run]
  split
  next => exact Or.inr ⟨t, hWell, rfl⟩
  next hWithin =>
    rw [not_or, Nat.not_lt, Nat.not_lt] at hWithin
    obtain ⟨hArray, hHash⟩ := hWithin
    rcases forM_setKey_cases 0 (t.displaced arraySize)
        (fun e he => (held?_of_mem_displaced hWell.toChained he).1)
        (t := t.cleared arraySize hashSize) (wellFormed_cleared hArray hHash) with
      ⟨t', hRun⟩ | hRefused
    · exact Or.inl ⟨t', hRun, sameEntries_of_forM (stores_setKey 1) hArray hHash hWell hRun⟩
    · exact Or.inr hRefused

/-- An array part is resized together with a hash part of the size that it has. The dummy counts as
none. -/
theorem resizeArray_run (arraySize : Nat) (t : Table) :
    (resizeArray arraySize).run t =
      (resize arraySize (if t.isDummy then 0 else t.bucketCount)).run t := rfl

/-- A resize that asks for enough buckets makes the parts exactly as large as it is asked to. None
of the stores behind it needs a rebuild then. -/
theorem resize_roomy (hWell : t.WellFormed) {arraySize hashSize : Nat}
    (hArray : arraySize ≤ twoPow Limits.arrayBits) (hHash : hashSize ≤ twoPow Limits.hashBits)
    (hRoom : t.unslotted arraySize ≤ hashSize) :
    ∃ t', (resize arraySize hashSize).run t = .ok () t' ∧ t.SameEntries t' ∧
      (t.cleared arraySize hashSize).SameSizes t' := by
  have hHash := (ceilLog2_le_iff _ _).mpr hHash
  obtain ⟨t', hRun, hSizes, _⟩ := forM_settled 1 (t.displaced arraySize)
    (fun e he => (held?_of_mem_displaced hWell.toChained he).1)
    (t := t.cleared arraySize hashSize) (wellFormed_cleared hArray hHash) (by
      simp only [isNone_slot?_cleared hArray]
      rw [occupied_cleared, Nat.zero_add]
      exact Nat.le_trans (t.countP_displaced_le arraySize)
        (Nat.le_trans hRoom (hashSize_le_capacity_cleared t _ _)))
  refine ⟨t', ?_, sameEntries_of_forM (stores_setKey 1) hArray hHash hWell hRun, hSizes⟩
  rw [resize, resizeWith_run, if_neg (not_or.mpr ⟨Nat.not_lt.mpr hArray, Nat.not_lt.mpr hHash⟩)]
  exact hRun

/-- The live buckets are not more than the buckets that can be filled. -/
theorem length_liveNodes_le (hWell : t.WellFormed) : t.liveNodes.length ≤ t.capacity := by
  unfold capacity
  split
  next hDummy =>
    rw [liveNodes, hWell.dummy (by simpa [isDummy] using hDummy)]
    exact Nat.le_refl 0
  next => exact List.length_filter_le ..

/-- The live indices are within the array part. -/
theorem liveIndices_le (t : Table) : ∀ i ∈ t.liveIndices, i ≤ t.arrayLimit := by
  intro i hi
  simp only [liveIndices, List.mem_filterMap] at hi
  obtain ⟨⟨v, j⟩, hMem, hLive⟩ := hi
  have hLt := List.snd_lt_of_mem_zipIdx hMem
  rw [Option.ite_none_left_eq_some] at hLive
  cases hLive.2
  simp only [Array.length_toList] at hLt
  rw [arrayLimit]
  omega

/-- A hash part that is asked to hold as much as before is as large as before. For the dummy, which
can hold nothing, this is the dummy again. -/
theorem bucketCount_cleared_capacity (hWell : t.WellFormed) (arraySize : Nat) :
    (t.cleared arraySize t.capacity).bucketCount = t.bucketCount ∧
      (t.cleared arraySize t.capacity).isDummy = t.isDummy := by
  have hPos := hWell.bucketCount_pos
  cases hDummy : t.isDummy with
  | true =>
      have hNone : t.capacity = 0 := by simp [capacity, hDummy]
      have hNodes := hWell.dummy (by simpa [isDummy] using hDummy)
      rw [hNone, bucketCount_cleared, bucketCount, hNodes]
      exact ⟨rfl, rfl⟩
  | false =>
      have hAll : t.capacity = t.bucketCount := by simp [capacity, hDummy]
      obtain ⟨bits, _, hCount⟩ := hWell.buckets
      rw [hAll]
      refine ⟨?_, ?_⟩
      · rw [bucketCount_cleared, hCount, twoPow_ceilLog2_twoPow]
      · simp [isDummy, cleared, Nat.ne_of_gt hPos]

/-- An array part that grows within the bound of the host gets the size it is asked for, and the
hash part stays as large as it is. No entry needs a bucket that did not have one, since the array
part has only gained slots. -/
theorem resizeArray_grown (hWell : t.WellFormed) {size : Nat} (hGrows : t.arrayLimit ≤ size)
    (hSize : size ≤ twoPow Limits.arrayBits) :
    ∃ t', (resizeArray size).run t = .ok () t' ∧ t'.arrayLimit = size ∧ t.SameEntries t' ∧
      t'.bucketCount = t.bucketCount ∧ t'.isDummy = t.isDummy := by
  obtain ⟨bits, hBits, hCount⟩ := hWell.buckets
  have hHash : t.capacity ≤ twoPow Limits.hashBits := by
    unfold capacity
    split
    next => exact Nat.zero_le _
    next => exact hCount ▸ twoPow_le_twoPow hBits
  have hSlots : t.liveIndices.countP (size < ·) = 0 := by
    rw [List.countP_eq_zero]
    intro i hi
    have hLast := t.liveIndices_le i hi
    simp only [decide_eq_true_eq]
    omega
  have hRoom : t.unslotted size ≤ t.capacity := by
    rw [unslotted, hSlots, Nat.zero_add]
    refine Nat.le_trans List.countP_le_length ?_
    rw [List.length_map]
    exact length_liveNodes_le hWell
  obtain ⟨t', hRun, hSame, hSizes⟩ := resize_roomy hWell hSize hHash hRoom
  obtain ⟨hBuckets, hDummy⟩ := bucketCount_cleared_capacity hWell size
  exact ⟨t', hRun, hSizes.arrayLimit.trans (arrayLimit_cleared ..), hSame,
    hSizes.bucketCount.trans hBuckets, hSizes.dummy.trans hDummy⟩

end TaggedRuntime.Table
