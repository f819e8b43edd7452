import TaggedRuntime.Host.Growth
import TaggedRuntime.Proofs.Config
import TaggedRuntime.Proofs.Heap.Basic
import TaggedRuntime.Proofs.Table.Sizing

/-! Growing the array part of a table of a heap. A slot that exists already costs
nothing; one within the bound of the settings resizes the array part to a power
of two and touches nothing else of the heap. -/

namespace TaggedRuntime

theorem le_nextPowerOfTwo (n : Nat) : n ≤ nextPowerOfTwo n := le_twoPow_ceilLog2 n

namespace Heap

variable {h : Heap} {r : Handle} {t : Table}

/-- A change of a table, run on its heap. What it leaves is put back in place also when it is
refused, for a refused change may have done a part. -/
theorem onTable_run {α : Type} (change : Table.Store α) (hTable : h.object? r = some (.table t)) :
    (onTable r change).run h =
      match change.run t with
      | .ok a t' => .ok a (h.withObject r (.table t'))
      | .error e t' => .error (.refused e) (h.withObject r (.table t')) := by
  have hTableRun : (table r).run h = .ok t h := by rw [table_run, hTable]
  unfold onTable
  rw [EStateM.run_bind, hTableRun]
  change EStateM.run (match change.run t with
    | .ok a t => (do setObject r (.table t); return a : HostM Heap α)
    | .error e t => (do setObject r (.table t); throw (.refused e) : HostM Heap α)) h = _
  cases change.run t <;> rfl

theorem arrayLimit_run (hTable : h.object? r = some (.table t)) :
    (HeapManager.arrayLimit r : HostM Heap Nat).run h = .ok t.arrayLimit h := by
  have hTableRun : (table r).run h = .ok t h := by rw [table_run, hTable]
  change (do return (← table r).arrayLimit : HostM Heap Nat).run h = _
  rw [EStateM.run_bind, hTableRun]
  rfl

/-- An array part that is too short is resized, and a refusal of the table is one of the heap. -/
theorem ensureCapacity_run (hTable : h.object? r = some (.table t)) {length : Nat}
    (hShort : t.arrayLimit < length) :
    (HeapManager.ensureCapacity r length : HostM Heap Unit).run h =
      match (Table.resizeArray length).run t with
      | .ok _ t' => .ok () (h.withObject r (.table t'))
      | .error e t' => .error (.refused e) (h.withObject r (.table t')) := by
  change (onTable r (do
    if (← getThe Table).arrayLimit < length then Table.resizeArray length)).run h = _
  rw [onTable_run _ hTable, EStateM.run_bind, run_getThe]
  simp only [hShort, if_true]
  cases (Table.resizeArray length).run t <;> rfl

end Heap

variable {config : Config} {j : Journal Heap} {r : Handle} {t : Table}

theorem arrayLimit_run (hTable : j.host.object? r = some (.table t)) (loc : Location) :
    (Run.host loc (HeapManager.arrayLimit r : HostM Heap Nat)) config j = .ok t.arrayLimit j := by
  rw [Run.host_run, Heap.arrayLimit_run hTable]

/-- Growing goes to the next power of two behind the position. A position past the setting is
refused before the table is touched, and the growth is reported only after it was made. -/
theorem growArray_run (hTable : j.host.object? r = some (.table t)) {position : Nat}
    (hShort : t.arrayLimit ≤ position) (loc : Location) :
    (growArray r position loc : Run Heap Unit) config j =
      if config.maxArraySize ≤ position then
        (Run.raise .invalidArrayIndex loc : Run Heap Unit) config j
      else
        match (Table.resizeArray (nextPowerOfTwo (position + 1))).run t with
        | .ok _ t' => .ok () (Run.reported config
            (.arrayGrown t.arrayLimit (nextPowerOfTwo (position + 1)) loc)
            { j with host := j.host.withObject r (.table t') })
        | .error _ t' => (Run.raise .outOfMemory loc : Run Heap Unit) config
            { j with host := j.host.withObject r (.table t') } := by
  have hRead : (MonadReader.read : Run Heap Config) config j = .ok config j := rfl
  have hGrow := Heap.ensureCapacity_run hTable
    (Nat.lt_of_le_of_lt hShort (le_nextPowerOfTwo (position + 1)))
  unfold growArray
  rw [Run.bind_run, hRead]
  dsimp only
  split
  next => rw [Run.bind_run, Run.raise_run]
  next =>
    rw [Run.bind_run, arrayLimit_run hTable]
    dsimp only
    rw [Run.bind_run, Run.host_run, hGrow]
    cases (Table.resizeArray (nextPowerOfTwo (position + 1))).run t with
    | ok _ t' => exact Run.emit_run ..
    | error _ t' => simp only [Run.raise_run]

/-- What making a slot exist does to a table. -/
theorem ensureArraySlot_run (hTable : j.host.object? r = some (.table t)) (i : Int64)
    (loc : Location) :
    (ensureArraySlot r i loc : Run Heap Unit) config j =
      if t.arrayLimit ≤ (i.toUInt64 - 1).toNat then
        (growArray r (i.toUInt64 - 1).toNat loc : Run Heap Unit) config j
      else .ok () j := by
  unfold ensureArraySlot
  rw [Run.bind_run, arrayLimit_run hTable]
  dsimp only
  split <;> rfl

/-- A slot of what is no table cannot be made to exist. -/
theorem ensureArraySlot_fault {f : Fault}
    (hFault : (Heap.table r).run j.host = .error (.fault f) j.host) (i : Int64) (loc : Location) :
    (ensureArraySlot r i loc : Run Heap Unit) config j = .error (.fault f) j := by
  have hHost : Run.host loc (HeapManager.arrayLimit r : HostM Heap Nat) config j = _ :=
    Run.host_run loc (do return (← Heap.table r).arrayLimit) config j
  rw [EStateM.run_bind, hFault] at hHost
  unfold ensureArraySlot
  rw [Run.bind_run, hHost]

/-- Making a slot exist resizes the array part of the table, or leaves the heap as it is, or runs
out of memory. Every resize is to a power of two that has room for the position. -/
theorem ensureArraySlot_cases (hTable : j.host.object? r = some (.table t)) (i : Int64)
    (loc : Location) (config : Config) :
    (∃ j', (ensureArraySlot r i loc : Run Heap Unit) config j = .ok () j' ∧
      (j'.host = j.host ∨ ∃ size t', (Table.resizeArray size).run t = .ok () t' ∧
        j'.host = j.host.withObject r (.table t'))) ∨
    ∃ e j', (ensureArraySlot r i loc : Run Heap Unit) config j = .error (.raised e) j' ∧
      (e.isFatal = true ∨ j'.host = j.host) := by
  rw [ensureArraySlot_run hTable]
  split
  next hShort =>
    rw [growArray_run hTable hShort]
    split
    next =>
      rw [Run.raise_run]
      exact Or.inr ⟨_, _, rfl, Or.inr (Run.host_reported ..)⟩
    next =>
      cases hResize : (Table.resizeArray (nextPowerOfTwo ((i.toUInt64 - 1).toNat + 1))).run t with
      | ok _ t' =>
          exact Or.inl ⟨_, rfl, Or.inr ⟨_, t', hResize, Run.host_reported ..⟩⟩
      | error _ t' =>
          simp only [Run.raise_run]
          exact Or.inr ⟨_, _, rfl, Or.inl (RuntimeError.isFatal_outOfMemory loc)⟩
  next => exact Or.inl ⟨j, rfl, Or.inl rfl⟩

/-- Making a slot exist keeps what resizing the array part of the table keeps. It has to be kept for
refused resizes as well. -/
theorem ensureArraySlot_ensures {inv : Heap → Prop} (hInv : inv j.host)
    (hResize : ∀ t t' size, j.host.object? r = some (.table t) →
      (Table.resizeArray size).run t = .ok () t' → inv (j.host.withObject r (.table t')))
    (i : Int64) (loc : Location) :
    (ensureArraySlot r i loc : Run Heap Unit).Ensures config j (fun _ h => inv h) inv := by
  by_cases hTable : ∃ t, j.host.object? r = some (.table t)
  · obtain ⟨t, hTable⟩ := hTable
    unfold Run.Ensures
    rcases ensureArraySlot_cases hTable i loc config with
      ⟨j', hDone, hHost⟩ | ⟨e, j', hRaised, hHost⟩
    · rw [hDone]
      change inv j'.host
      rcases hHost with hSame | ⟨size, t', hRun, hPut⟩
      · rwa [hSame]
      · rw [hPut]
        exact hResize t t' size hTable hRun
    · rw [hRaised]
      refine hHost.imp_right fun hSame => ?_
      rwa [hSame]
  · unfold ensureArraySlot
    refine Run.Ensures.bind (Run.Ensures.host _ (HostM.Ensures.bind (Heap.table_ensures hInv ?_)))
    exact fun t hHeld => absurd ⟨t, hHeld⟩ hTable

/-- Making a table, as the steps that it takes on any host. Both the run on a heap and what a host
is asked for are read off this equation. -/
theorem createTable_eq {σ Obj : Type} [HeapManager σ Obj] (arrayHint recordHint : Int64)
    (loc : Location) (config : Config) (j : Journal σ) :
    createTable arrayHint recordHint loc config j =
      if config.maxArraySize < arrayHint.toInt.toNat ∨ maxHashSize < recordHint.toInt.toNat then
        (Run.raise .tableOverflow loc : Run σ Obj) config j
      else
        match Run.host loc (HeapManager.newTable (σ := σ)) config j with
        | .ok table j₁ =>
          if 0 < arrayHint.toInt.toNat ∨ 0 < recordHint.toInt.toNat then
            match Run.host loc (HeapManager.resizeTable table arrayHint.toInt.toNat
                recordHint.toInt.toNat) config j₁ with
            | .ok _ j₂ => .ok table j₂
            | .error e j₂ => .error e j₂
          else .ok table j₁
        | .error e j₁ => .error e j₁ := by
  have hRead : (MonadReader.read : Run σ Config) config j = .ok config j := rfl
  unfold createTable
  rw [Run.bind_run, hRead]
  simp only [Bool.or_eq_true, decide_eq_true_eq]
  split
  next => rw [Run.bind_run, Run.raise_run, Run.raise_run]
  next =>
    rw [Run.bind_run]
    cases Run.host loc (HeapManager.newTable (σ := σ)) config j with
    | ok table j₁ =>
        dsimp only
        split
        next =>
          rw [Run.bind_run]
          cases Run.host loc (HeapManager.resizeTable table arrayHint.toInt.toNat
            recordHint.toInt.toNat) config j₁ <;> rfl
        next => rfl
    | error e j₁ => rfl

/-- What making a table does to a heap. The sizes are checked first, then a handle is taken, and
only a hint that is positive leads to a resize. -/
theorem createTable_run (arrayHint recordHint : Int64) (loc : Location) (config : Config)
    (j : Journal Heap) {r : Handle} (hNext : r = ⟨UInt32.ofNat j.host.objects.size⟩) :
    createTable (σ := Heap) arrayHint recordHint loc config j =
      if config.maxArraySize < arrayHint.toInt.toNat ∨ maxHashSize < recordHint.toInt.toNat then
        (Run.raise .tableOverflow loc : Run Heap Handle) config j
      else if Limits.handles ≤ j.host.objects.size then
        (Run.raise .outOfMemory loc : Run Heap Handle) config j
      else if 0 < arrayHint.toInt.toNat ∨ 0 < recordHint.toInt.toNat then
        match (Table.resize arrayHint.toInt.toNat recordHint.toInt.toNat).run {} with
        | .ok _ t =>
          .ok r { j with host := (j.host.withNew (.table {})).withObject r (.table t) }
        | .error _ t => (Run.raise .outOfMemory loc : Run Heap Handle) config
          { j with host := (j.host.withNew (.table {})).withObject r (.table t) }
      else .ok r { j with host := j.host.withNew (.table {}) } := by
  subst hNext
  have hAlloc : Run.host loc (HeapManager.newTable : HostM Heap Handle) config j = _ :=
    Run.host_run loc (Heap.alloc (.table {})) config j
  rw [Heap.alloc_run] at hAlloc
  rw [createTable_eq, hAlloc]
  by_cases hFull : Limits.handles ≤ j.host.objects.size
  · simp only [hFull, if_true, Run.raise_run]
  · have hHeld : (j.host.withNew (.table {})).object? ⟨UInt32.ofNat j.host.objects.size⟩ =
        some (.table {}) := by rw [Heap.object?_withNew (Nat.lt_of_not_le hFull), if_pos rfl]
    have hHost : Run.host loc (HeapManager.resizeTable ⟨UInt32.ofNat j.host.objects.size⟩
        arrayHint.toInt.toNat recordHint.toInt.toNat : HostM Heap Unit) config
          { j with host := j.host.withNew (.table {}) } = _ :=
      Run.host_run loc (Heap.onTable _
        (Table.resize arrayHint.toInt.toNat recordHint.toInt.toNat)) config _
    rw [Heap.onTable_run _ hHeld] at hHost
    simp only [hFull, if_false, hHost]
    cases (Table.resize arrayHint.toInt.toNat recordHint.toInt.toNat).run {} with
    | ok _ t => rfl
    | error _ t => simp only [Run.raise_run]

/-- Making a table allocates one, and resizes it if it has to have room. What is refused before that
changes nothing. -/
theorem createTable_ensures {done : Handle → Heap → Prop} {failed : Heap → Prop}
    (hFailed : failed j.host)
    (hNew : j.host.objects.size < Limits.handles →
      done ⟨UInt32.ofNat j.host.objects.size⟩ (j.host.withNew (.table {})))
    (hResize : ∀ r h t t' arraySize hashSize, done r h → h.object? r = some (.table t) →
      (Table.resize arraySize hashSize).run t = .ok () t' → done r (h.withObject r (.table t')))
    (arrayHint recordHint : Int64) (loc : Location) :
    (createTable (σ := Heap) arrayHint recordHint loc).Ensures config j done failed := by
  have hRun := createTable_run arrayHint recordHint loc config j rfl
  unfold Run.Ensures
  split at hRun
  next =>
    rw [hRun, Run.raise_run]
    exact Or.inr (by simpa using hFailed)
  split at hRun
  next =>
    rw [hRun, Run.raise_run]
    exact Or.inl (RuntimeError.isFatal_outOfMemory loc)
  next hFull =>
    have hRoom : j.host.objects.size < Limits.handles := Nat.lt_of_not_le hFull
    split at hRun
    next =>
      have hHeld : (j.host.withNew (.table {})).object? ⟨UInt32.ofNat j.host.objects.size⟩ =
          some (.table {}) := by rw [Heap.object?_withNew hRoom, if_pos rfl]
      rw [hRun]
      cases hParts : (Table.resize arrayHint.toInt.toNat recordHint.toInt.toNat).run {} with
      | ok _ t => exact hResize _ _ {} t _ _ (hNew hRoom) hHeld hParts
      | error _ t =>
          simp only [Run.raise_run]
          exact Or.inl (RuntimeError.isFatal_outOfMemory loc)
    next =>
      rw [hRun]
      exact hNew hRoom

end TaggedRuntime
