import TaggedRuntime.Proofs.Heap.Growth
import TaggedRuntime.Proofs.Table.Operation

/-! What all tables of a heap have in common, and operations that leave it so
whether they are carried out or not. -/

namespace TaggedRuntime

namespace Heap

/-- All tables of a heap have a property. -/
def Tables (p : Table → Prop) (h : Heap) : Prop := ∀ r t, h.object? r = some (.table t) → p t

variable {p q : Table → Prop} {h h' : Heap} {r : Handle} {t : Table}

theorem Tables.mono (hTables : h.Tables p) (hp : ∀ t, p t → q t) : h.Tables q :=
  fun r t hTable => hp t (hTables r t hTable)

theorem Tables.congr (hTables : h.Tables p) (hObject : ∀ r, h'.object? r = h.object? r) :
    h'.Tables p := by
  intro r t hTable
  rw [hObject] at hTable
  exact hTables r t hTable

/-- A table with the property is put in the place of another. -/
theorem Tables.put (hTables : h.Tables p) (hHeld : h.object? r = some (.table t)) {t' : Table}
    (hPut : p t') : (h.withObject r (.table t')).Tables p := by
  intro q t₁ hTable
  rw [object?_withObject (by rw [hHeld]; rfl)] at hTable
  split at hTable
  next =>
    cases hTable
    exact hPut
  next => exact hTables q t₁ hTable

/-- A new table with the property is added to the others. -/
theorem Tables.allocated (hTables : h.Tables p) (hRoom : h.objects.size < Limits.handles)
    (hNew : p t) : (h.withNew (.table t)).Tables p := by
  intro q t₁ hTable
  rw [object?_withNew hRoom] at hTable
  split at hTable
  next =>
    cases hTable
    exact hNew
  next => exact hTables q t₁ hTable

/-- A change of a table leaves of the heap what it leaves of the table, also when it is refused. -/
theorem left_onTable {α : Type} (change : Table.Store α) (hTable : h.object? r = some (.table t)) :
    left (onTable r change) h = h.withObject r (.table (left change t)) := by
  have hRun := onTable_run change hTable
  cases hChange : change.run t with
  | ok a t' =>
      rw [hChange] at hRun
      rw [left_of_ok hRun, left_of_ok hChange]
  | error e t' =>
      rw [hChange] at hRun
      rw [left_of_error hRun, left_of_error hChange]

/-- What a change keeps of one table it keeps of all of them. -/
theorem keeps_onTable {α : Type} {change : Table.Store α} (hChange : ∀ t, p t → p (left change t))
    (r : Handle) : Keeps (Tables p) (onTable r change) := by
  intro h hTables
  rcases table_cases r h with ⟨t, hTable⟩ | ⟨f, hRun⟩
  · rw [left_onTable change hTable]
    exact hTables.put hTable (hChange t (hTables r t hTable))
  · have hFault : left (onTable r change) h = h := by
      rw [onTable, left_bind, hRun]
    rwa [hFault]

/-- An operation on a table changes no other table. -/
theorem keeps_change (op : Table.Operation) (hApply : ∀ t, p t → p (op.apply t)) (r : Handle) :
    Keeps (Tables p) (onTable r op.change) :=
  keeps_onTable (fun t hp => op.left_change t ▸ hApply t hp) r

theorem keeps_table {inv : Heap → Prop} (r : Handle) : Keeps inv (table r) := by
  intro h hInv
  unfold left
  rw [table_run]
  cases h.object? r with
  | none => exact hInv
  | some o => cases o <;> exact hInv

/-- A colour says nothing of tables. -/
theorem keeps_setColor (r : Handle) (c : Color) : Keeps (Tables p) (setColor r c) := by
  intro h hTables
  have hRun := setColor_run r c h
  split at hRun
  next =>
    rw [left_of_ok hRun]
    exact hTables.congr (h.recolored_modify _ c).object
  next => rwa [left_of_error hRun]

theorem keeps_newStr (bytes : Bytes) : Keeps (Tables p) (newStr bytes) := by
  intro h hTables
  obtain ⟨s, h', hRun, hObjects, _⟩ := newStr_objects bytes h
  rw [left_of_ok hRun]
  exact hTables.congr (object?_congr hObjects)

/-- Registering a key makes a string and numbers it. No object is touched by either. -/
theorem keeps_registerKey (bytes : Bytes) : Keeps (Tables p) (registerKey bytes) := by
  intro h hTables
  obtain ⟨s, h', hRun, hObjects, _⟩ := newStr_objects bytes h
  have hRegister := registerKey_run hRun
  split at hRegister
  next => rwa [left_of_error hRegister]
  next =>
    rw [left_of_ok hRegister]
    exact hTables.congr (object?_congr hObjects)

/-- The barrier changes colours only, if it changes anything. -/
theorem keeps_writeBarrier (owner child : Handle) :
    Keeps (Tables p) (writeBarrier owner child : HostM Heap Unit) := by
  intro h hTables
  have hGrayed : (h.regrayed owner).Tables p :=
    hTables.congr (h.recolored_regrayed owner).object
  unfold left
  rw [writeBarrier_run]
  cases h.color? owner with
  | none => exact hTables
  | some c =>
      cases c with
      | white => exact hTables
      | gray => exact hTables
      | black =>
          cases h.color? child with
          | none => exact hTables
          | some d => cases d <;> assumption

end Heap

section Growth

open Heap

variable {p : Table → Prop} {config : Config} {loc : Location}

/-- A new table gets the parts it is asked for, and no other table changes. The property has to hold
of a table without entries and of what a resize to sizes within the settings leaves of it. -/
theorem keeps_createTable (hNew : p {}) {arrayHint recordHint : Int64}
    (hResize : arrayHint.toInt.toNat ≤ config.maxArraySize →
      p (left (Table.resize arrayHint.toInt.toNat recordHint.toInt.toNat) {})) :
    Keeps (fun j => j.host.Tables p)
      (createTable (σ := Heap) arrayHint recordHint loc config) := by
  intro j hTables
  have hRun := createTable_run arrayHint recordHint loc config j rfl
  split at hRun
  next =>
    rw [Run.raise_run] at hRun
    rw [Run.left_of_error hRun]
    simpa using hTables
  next hWithin =>
    have hArray : arrayHint.toInt.toNat ≤ config.maxArraySize :=
      Nat.not_lt.mp (not_or.mp hWithin).1
    split at hRun
    next =>
      rw [Run.raise_run] at hRun
      rw [Run.left_of_error hRun]
      simpa using hTables
    next hFull =>
      have hRoom : j.host.objects.size < Limits.handles := Nat.lt_of_not_le hFull
      have hAllocated := hTables.allocated hRoom hNew
      split at hRun
      next =>
        have hHeld : (j.host.withNew (.table {})).object? ⟨UInt32.ofNat j.host.objects.size⟩ =
            some (.table {}) := by rw [object?_withNew hRoom, if_pos rfl]
        have hPut := hAllocated.put hHeld (hResize hArray)
        cases hParts : (Table.resize arrayHint.toInt.toNat recordHint.toInt.toNat).run {} with
        | ok _ t =>
            rw [hParts] at hRun
            rw [left_of_ok hParts] at hPut
            rw [Run.left_of_ok hRun]
            exact hPut
        | error _ t =>
            rw [hParts] at hRun
            rw [left_of_error hParts] at hPut
            simp only [Run.raise_run] at hRun
            rw [Run.left_of_error hRun]
            simpa using hPut
      next =>
        rw [Run.left_of_ok hRun]
        exact hAllocated

/-- Growing an array part resizes it, to hold a position that the settings allow. The array part was
too short for the position, so it does grow. -/
theorem keeps_ensureArraySlot (hGrow : ∀ t position, p t → t.arrayLimit ≤ position →
      position < config.maxArraySize →
      p (left (Table.resizeArray (nextPowerOfTwo (position + 1))) t)) (array : Handle) (i : Int64) :
    Keeps (fun j => j.host.Tables p) ((ensureArraySlot array i loc : Run Heap Unit) config) := by
  intro j hTables
  rcases table_cases array j.host with ⟨t, hTable⟩ | ⟨f, hFault⟩
  · have hRun : (ensureArraySlot array i loc : Run Heap Unit) config j = _ :=
      ensureArraySlot_run hTable i loc
    split at hRun
    next hShort =>
      rw [growArray_run hTable hShort] at hRun
      split at hRun
      next =>
        rw [Run.raise_run] at hRun
        rw [Run.left_of_error hRun]
        simpa using hTables
      next hWithin =>
        have hPut := hTables.put hTable
          (hGrow t _ (hTables array t hTable) hShort (Nat.lt_of_not_le hWithin))
        cases hResize : (Table.resizeArray (nextPowerOfTwo ((i.toUInt64 - 1).toNat + 1))).run t with
        | ok _ t' =>
            rw [hResize] at hRun
            rw [left_of_ok hResize] at hPut
            rw [Run.left_of_ok hRun]
            simpa using hPut
        | error _ t' =>
            rw [hResize] at hRun
            rw [left_of_error hResize] at hPut
            simp only [Run.raise_run] at hRun
            rw [Run.left_of_error hRun]
            simpa using hPut
    next => rwa [Run.left_of_ok hRun]
  · rwa [Run.left_of_error (ensureArraySlot_fault hFault i loc)]

end Growth

end TaggedRuntime
