import TaggedRuntime.Proofs.Abi.FieldCalls
import TaggedRuntime.Proofs.Abi.Answers
import TaggedRuntime.Proofs.Heap.Tables
import TaggedRuntime.Proofs.Table.Doubling

/-! The bound that the settings put on array parts. Making a table and making a slot exist look at
it; a store that rebuilds a table does not, and knows the bound of the host only. So it
holds in all runs exactly when the settings leave it at that of the host. -/

namespace TaggedRuntime

namespace Abi

open Table Heap

variable {p : Table → Prop}

/-! ### Operations on a heap -/

/-- A value made of a flat value may be a new string. The tables stay as they are. -/
theorem keeps_toValue (v : FlatValue) : Keeps (Tables p) v.toValue := by
  unfold FlatValue.toValue
  iterate 5
    split
    next => exact .pure _
  split
  next => exact .bind (keeps_newStr _) fun _ => .pure _
  iterate 2
    split
    next => exact .pure _
  exact .throw _

/-- A field is stored as one of the operations on its table. So a property that is kept by
operations on well-formed tables is kept here, whichever way the store goes. -/
theorem keeps_storeCell (hWell : ∀ t, p t → t.WellFormed)
    (hStore : ∀ t (op : Operation), p t → p (op.apply t)) (table : Handle) (s : Str) (a : Value)
    (cache : FieldCache) : (storeCell table s a cache).Keeps (Tables p) := by
  intro config j hTables
  rcases table_cases table j.host with ⟨t, hTable⟩ | ⟨f, hFault⟩
  · have hHolds := hTables table t hTable
    obtain ⟨after, ⟨written, hWrite, hRun⟩ | ⟨_, hRun⟩⟩ :=
      storeCell_cases (hWell t hHolds) hTable s a config cache
    · have hPut := hTables.put hTable (hStore t (.overwriteStr s a) hHolds)
      rw [Operation.apply_overwriteStr hWrite] at hPut
      rw [Run.left_of_ok hRun]
      exact hPut
    · have hPut := hTables.put hTable (hStore t (.setStr s a) hHolds)
      rw [← Operation.left_change] at hPut
      have hLeft : left (storeCell table s a cache config) j =
          left (Run.host {} (onTable table (setStr s a)) config) j :=
        (left_congr hRun).trans (Run.left_bind_pure _ after config j)
      rw [hLeft, Run.left_host, left_onTable _ hTable]
      exact hPut
  · unfold storeCell
    rw [Run.left_bind, Run.host_run, hFault]
    exact hTables

/-- A field is written as an operation on its table, after its value was made. The property has to
be kept by all operations, and it has to give the invariant of the table, without which the cell of
a field is not known to be its own. -/
theorem keeps_writeField (hWell : ∀ t, p t → t.WellFormed)
    (hStore : ∀ t (op : Operation), p t → p (op.apply t)) (table : Handle) (id : UInt32)
    (v : FlatValue) (cache : FieldCache) : (writeField table id v cache).Keeps (Tables p) := by
  refine .bind (.bind .get fun j => ?_) fun s => .bind (.host _ (keeps_toValue v)) fun a => ?_
  · split
    next => exact .pure _
    next => exact .fault _
  · have hCell := keeps_storeCell hWell hStore table s a cache
    cases a.object? with
    | none => exact hCell
    | some child => exact .bind (.host _ (keeps_writeBarrier table child)) fun _ => hCell

/-! ### Operations of a process -/

variable {config : Config} {heap : HeapRef} {j : Journal World}

/-- What an operation on a heap leaves of the process, also when it fails. No other heap is touched.
-/
theorem left_onHeap {α : Type} {h : Heap} (x : Run Heap α) (config : Config)
    (hHeap : j.host.heap? heap = some h) :
    ∃ back : Journal Heap → Journal World, (∀ j', (back j').host.heap? heap = some j'.host) ∧
      (∀ j' other, other ≠ heap → (back j').host.heap? other = j.host.heap? other) ∧
      left (onHeap heap x config) j =
        back (left (x config) { host := h, events := j.events, output := j.output }) := by
  obtain ⟨back, hBack, hOthers, hRun⟩ := onHeap_run x config hHeap
  refine ⟨back, hBack, hOthers, ?_⟩
  cases hOutcome : x config { host := h, events := j.events, output := j.output } with
  | ok a j' =>
      rw [hOutcome] at hRun
      rw [Run.left_of_ok hRun, Run.left_of_ok hOutcome]
  | error failure j' =>
      rw [hOutcome] at hRun
      rw [Run.left_of_error hRun, Run.left_of_error hOutcome]

/-- An operation on a heap leaves it as it does when it is run alone. -/
theorem left_onHeap_heap? {α : Type} {h : Heap} (x : Run Heap α) (config : Config)
    (hHeap : j.host.heap? heap = some h) : (left (onHeap heap x config) j).host.heap? heap =
      some (left (x config) { host := h, events := j.events, output := j.output }).host := by
  obtain ⟨back, hBack, _, hLeft⟩ := left_onHeap x config hHeap
  rw [hLeft, hBack]

/-- It leaves all other heaps. -/
theorem left_onHeap_other {α : Type} {other : HeapRef} (x : Run Heap α) (config : Config)
    (hOther : other ≠ heap) :
    (left (onHeap heap x config) j).host.heap? other = j.host.heap? other := by
  cases hHeap : j.host.heap? heap with
  | none => rw [Run.left_of_error (onHeap_null x config hHeap)]
  | some h =>
      obtain ⟨back, _, hOthers, hLeft⟩ := left_onHeap x config hHeap
      rw [hLeft, hOthers _ other hOther]

/-- A property that an operation keeps of its heap is kept of the heap in its process. -/
theorem has_left_onHeap {α : Type} {inv : Heap → Prop} {x : Run Heap α}
    (hx : Keeps (fun j : Journal Heap => inv j.host) (x config)) (hHas : j.host.Has heap inv) :
    (left (onHeap heap x config) j).host.Has heap inv := by
  obtain ⟨h, hHeap, hInv⟩ := hHas
  exact ⟨_, left_onHeap_heap? x config hHeap, hx _ hInv⟩

/-- An answer changes no heap that the operation did not change. The last error is all that an
answer adds to the process. -/
theorem left_settle_heap? {α : Type} (x : Run World α) (config : Config) (j : Journal World) :
    (left (settle x config) j).host.heap? heap = (left (x config) j).host.heap? heap := by
  have hRun := settle_run x config j
  cases hOutcome : x config j with
  | ok a j' =>
      rw [hOutcome] at hRun
      rw [Run.left_of_ok hOutcome, left_of_ok (x := settle x config) hRun]
  | error failure j' =>
      rw [hOutcome] at hRun
      rw [Run.left_of_error hOutcome]
      cases failure with
      | fault f => rw [left_of_ok (x := settle x config) hRun]; rfl
      | raised e =>
          cases hFatal : e.isFatal with
          | true =>
              simp only [hFatal, if_true] at hRun
              rw [left_of_error (x := settle x config) hRun]
          | false =>
              simp only [hFatal] at hRun
              rw [left_of_ok (x := settle x config) hRun]; rfl

/-- A store from native code leaves what its operation leaves. Nothing happens behind it but the
answer. -/
theorem left_setField (table : Handle) (id : UInt32) (value : FlatValue) (cache : FieldCache)
    (config : Config) (j : Journal World) :
    left (Abi.setField heap table id value (some cache) config) j =
      left (settle (onHeap heap (writeField table id value cache)) config) j := by
  refine (left_bind (settle (onHeap heap (writeField table id value cache)) config) _ j).trans ?_
  cases hRun : (settle (onHeap heap (writeField table id value cache)) config).run j with
  | ok answer j' => cases answer <;> exact (left_of_ok hRun).symm
  | error e j' => exact (left_of_error hRun).symm

/-- What is done to the tables of a heap: they are made, slots are made to exist, and values are
stored, the fields of native code among them. -/
inductive Edit where
  | createTable (arrayHint recordHint : Int64) (loc : Location)
  | ensureArraySlot (array : Handle) (i : Int64) (loc : Location)
  | intern (name : Bytes)
  | setField (table : Handle) (id : UInt32) (value : FlatValue) (cache : Option FieldCache)
  | set (table : Handle) (k v : Value)
  | setInt (table : Handle) (n : Int64) (v : Value)
  | setStr (table : Handle) (s : Str) (v : Value)

namespace Edit

/-- The process after an edit of one of its heaps, carried out or not. -/
def apply (config : Config) (heap : HeapRef) (j : Journal World) : Edit → Journal World
  | createTable arrayHint recordHint loc =>
    left (onHeap heap (TaggedRuntime.createTable (σ := Heap) arrayHint recordHint loc) config) j
  | ensureArraySlot array i loc =>
    left (onHeap heap (TaggedRuntime.ensureArraySlot array i loc) config) j
  | intern name => left (Abi.intern heap name config) j
  | setField table id value cache => left (Abi.setField heap table id value cache config) j
  | set table k v => left (onHeap heap (Run.host {} (Heap.onTable table (Table.set k v))) config) j
  | setInt table n v =>
    left (onHeap heap (Run.host {} (Heap.onTable table (Table.setInt n v))) config) j
  | setStr table s v =>
    left (onHeap heap (Run.host {} (Heap.onTable table (Table.setStr s v))) config) j

/-- Edits that store a value in a table. -/
def isStore : Edit → Bool
  | createTable .. => false
  | ensureArraySlot .. => false
  | intern _ => false
  | _ => true

/-- An edit keeps what is true of new tables and kept by the changes that it may make. The
conditions are one for each kind of edit, and stores come under theirs only if there are any. -/
theorem apply_has (edit : Edit) (hWell : ∀ t, p t → t.WellFormed) (hNew : p {})
    (hCreate : ∀ arraySize hashSize, arraySize ≤ config.maxArraySize →
      p (left (Table.resize arraySize hashSize) {}))
    (hGrow : ∀ t position, p t → t.arrayLimit ≤ position → position < config.maxArraySize →
      p (left (Table.resizeArray (nextPowerOfTwo (position + 1))) t))
    (hStore : edit.isStore = true → ∀ t (op : Operation), p t → p (op.apply t))
    (hHas : j.host.Has heap (Tables p)) : (edit.apply config heap j).host.Has heap (Tables p) := by
  have hSettled {α : Type} {x : Run Heap α} (hx : x.Keeps (Tables p)) :
      (left (settle (onHeap heap x) config) j).host.Has heap (Tables p) := by
    obtain ⟨h, hHeap, hTables⟩ := has_left_onHeap (hx config) hHas
    exact ⟨h, (left_settle_heap? _ config j).trans hHeap, hTables⟩
  have hStored (hKind : edit.isStore = true) (table : Handle) (op : Operation) :
      (left (onHeap heap (Run.host {} (Heap.onTable table op.change)) config) j).host.Has heap
        (Tables p) :=
    has_left_onHeap (Run.Keeps.host {} (keeps_change op (fun t => hStore hKind t op) table) config)
      hHas
  cases edit with
  | createTable arrayHint recordHint loc =>
      exact has_left_onHeap (keeps_createTable hNew (hCreate _ _)) hHas
  | ensureArraySlot array i loc => exact has_left_onHeap (keeps_ensureArraySlot hGrow array i) hHas
  | intern name => exact hSettled (.host {} (keeps_registerKey name))
  | setField table id value cache =>
      cases cache with
      | none => exact hHas
      | some cache =>
          have hKept := hSettled (keeps_writeField hWell (hStore rfl) table id value cache)
          rw [← left_setField] at hKept
          exact hKept
  | set table k v => exact hStored rfl table (.set k v)
  | setInt table n v => exact hStored rfl table (.setInt n v)
  | setStr table s v => exact hStored rfl table (.setStr s v)

end Edit

/-- Runs of edits on a heap that is new at the start, under settings that do not change. -/
inductive Edited (config : Config) (heap : HeapRef) : Journal World → Prop where
  | start {number : Nat} {j : Journal World}
      (hNew : j.host.heap? heap = some ({ number := number } : Heap)) : Edited config heap j
  | edit {j : Journal World} (hEdited : Edited config heap j) (edit : Edit) :
      Edited config heap (edit.apply config heap j)

/-- The tables of a heap are well-formed after any run of edits, under any settings. The induction
is on the run. -/
theorem Edited.wellFormed (hEdited : Edited config heap j) :
    j.host.Has heap (Tables WellFormed) := by
  induction hEdited with
  | start hNew => exact ⟨_, hNew, fun r t hTable => by simp [Heap.object?] at hTable⟩
  | edit _ edit ih =>
      refine edit.apply_has (fun _ ht => ht) wellFormed_new (fun arraySize hashSize _ => ?_)
        (fun t position ht _ _ => ?_) (fun _ t op ht => op.wellFormed_apply ht) ih
      · exact (Operation.resize arraySize hashSize).left_change {} ▸
          (Operation.resize arraySize hashSize).wellFormed_apply wellFormed_new
      · exact (Operation.resizeArray _).left_change t ▸
          (Operation.resizeArray _).wellFormed_apply ht

/-- All array parts of a heap are within a bound. -/
def Within (limit : Nat) (h : Heap) : Prop := h.Tables fun t => t.arrayLimit ≤ limit

/-- An edit that stores nothing keeps array parts within the bound of the settings. Each size that
such an edit asks for was compared with the bound first, so this holds under every setting. -/
theorem Edited.within_of_growth (hEdited : Edited config heap j)
    (hBits : config.maxArrayBits ≤ Limits.arrayBits)
    (hWithin : j.host.Has heap (Within config.maxArraySize)) (edit : Edit)
    (hGrowth : edit.isStore = false) :
    (edit.apply config heap j).host.Has heap (Within config.maxArraySize) := by
  obtain ⟨h, hHeap, hLimits⟩ := hWithin
  obtain ⟨h', hHeap', hWell⟩ := hEdited.wellFormed
  rw [hHeap] at hHeap'
  cases hHeap'
  have hMax : config.maxArraySize ≤ twoPow Limits.arrayBits := twoPow_le_twoPow hBits
  have hBoth : j.host.Has heap
      (Tables fun t => t.WellFormed ∧ t.arrayLimit ≤ config.maxArraySize) :=
    ⟨h, hHeap, fun r t hTable => ⟨hWell r t hTable, hLimits r t hTable⟩⟩
  suffices hKept : (edit.apply config heap j).host.Has heap
      (Tables fun t => t.WellFormed ∧ t.arrayLimit ≤ config.maxArraySize) by
    obtain ⟨h', hHeap', hTables⟩ := hKept
    exact ⟨h', hHeap', hTables.mono fun _ ht => ht.2⟩
  refine edit.apply_has (fun _ ht => ht.1) ⟨wellFormed_new, Nat.zero_le _⟩
    (fun arraySize hashSize hArray => ?_) (fun t position ht hShort hPosition => ?_)
    (fun hKind => ?_) hBoth
  · refine ⟨?_, ?_⟩
    · exact (Operation.resize arraySize hashSize).left_change {} ▸
        (Operation.resize arraySize hashSize).wellFormed_apply wellFormed_new
    · have hRun := resize_new arraySize hashSize
      split at hRun
      next =>
        rw [left_of_error hRun]
        exact Nat.zero_le _
      next =>
        rw [left_of_ok hRun, arrayLimit_cleared]
        exact hArray
  · have hSize : nextPowerOfTwo (position + 1) ≤ config.maxArraySize :=
      twoPow_le_twoPow ((ceilLog2_le_iff _ _).mpr hPosition)
    have hGrows : t.arrayLimit ≤ nextPowerOfTwo (position + 1) :=
      Nat.le_trans hShort (Nat.le_of_lt (le_nextPowerOfTwo (position + 1)))
    obtain ⟨t', hRun, hLimit, _⟩ := resizeArray_grown ht.1 hGrows (Nat.le_trans hSize hMax)
    refine ⟨?_, ?_⟩
    · exact (Operation.resizeArray _).left_change t ▸
        (Operation.resizeArray _).wellFormed_apply ht.1
    · rw [left_of_ok hRun, hLimit]
      exact hSize
  · rw [hGrowth] at hKind
    cases hKind

/-! ### A run past the bound -/

/-- A run of edits leads to a table. -/
def Leads (config : Config) (r : Handle) (t : Table) : Prop :=
  ∃ j, Edited config (some 0) j ∧ j.host.Has (some 0) fun h => h.object? r = some (.table t)

variable {r : Handle} {t t' : Table}

theorem Leads.setInt (hLeads : Leads config r t) {n : Int64} {v : Value}
    (hRun : (Table.setInt n v).run t = .ok () t') : Leads config r t' := by
  obtain ⟨j, hEdited, h, hHeap, hTable⟩ := hLeads
  refine ⟨_, hEdited.edit (.setInt r n v), _, left_onHeap_heap? _ config hHeap, ?_⟩
  rw [Run.left_host, left_onTable _ hTable, left_of_ok hRun]
  exact object?_withObject_self hTable _

/-- A new table has as large an array part as the settings allow. It was made with a hint of that
size, which is within the settings. -/
theorem leads_cleared (hBits : config.maxArrayBits ≤ Limits.arrayBits) :
    Leads config ⟨0⟩ (Table.cleared {} config.maxArraySize 0) := by
  have hMax : config.maxArraySize ≤ twoPow Limits.arrayBits := twoPow_le_twoPow hBits
  have hBound : twoPow Limits.arrayBits = 2 ^ 31 := rfl
  have hPos : 0 < config.maxArraySize := twoPow_pos config.maxArrayBits
  have hHint : (Int64.ofNat config.maxArraySize).toInt.toNat = config.maxArraySize := by
    rw [Int64.toInt_ofNat_of_lt (by omega)]
    rfl
  let j : Journal World := { host := { heaps := #[{}] } }
  have hHeap : j.host.heap? (some 0) = some {} := rfl
  refine ⟨_, (Edited.start hHeap).edit (.createTable (Int64.ofNat config.maxArraySize) 0 {}), _,
    left_onHeap_heap? _ config hHeap, ?_⟩
  have hNone : (0 : Int64).toInt.toNat = 0 := rfl
  have hResize := resize_new config.maxArraySize 0
  rw [if_neg (not_or.mpr ⟨Nat.not_lt.mpr hMax, by decide⟩)] at hResize
  have hRun := createTable_run (Int64.ofNat config.maxArraySize) 0 {} config { host := {} } rfl
  rw [hHint, hNone, if_neg (not_or.mpr ⟨Nat.lt_irrefl _, Nat.not_lt_zero _⟩), if_neg (by decide),
    if_pos (Or.inl hPos), hResize] at hRun
  dsimp only
  rw [Run.left_of_ok hRun]
  rfl

/-- A run of edits fills a table from its first slot on, up to the size that the settings allow. The
induction is on the number of slots that hold a value. -/
theorem leads_filled (hBits : config.maxArrayBits ≤ Limits.arrayBits) {used : Nat}
    (hUsed : used ≤ config.maxArraySize) :
    ∃ t, Leads config ⟨0⟩ t ∧ t.Filled config.maxArrayBits used := by
  induction used with
  | zero => exact ⟨_, leads_cleared hBits, Filled.cleared hBits⟩
  | succ used ih =>
      obtain ⟨t, hLeads, hFilled⟩ := ih (Nat.le_of_lt hUsed)
      obtain ⟨t', hRun, hFilled'⟩ := hFilled.store (v := .bool true) hUsed rfl
      exact ⟨t', hLeads.setInt hRun, hFilled'⟩

/-- A program that fills a table of the largest size and stores one value more has an array part
past the bound, unless that is the bound of the host. -/
theorem leads_doubled (hBits : config.maxArrayBits < Limits.arrayBits) :
    ∃ t, Leads config ⟨0⟩ t ∧ config.maxArraySize < t.arrayLimit := by
  obtain ⟨t, hLeads, hFilled⟩ := leads_filled (Nat.le_of_lt hBits) (Nat.le_refl _)
  obtain ⟨t', hRun, hLimit⟩ := hFilled.doubled (v := .bool true) hBits rfl
  have hPos := twoPow_pos config.maxArrayBits
  have hSucc := twoPow_succ config.maxArrayBits
  have hMax : config.maxArraySize = twoPow config.maxArrayBits := rfl
  exact ⟨t', hLeads.setInt hRun, by omega⟩

/-- Edits that store nothing keep the array parts of a heap within the bound of the settings. All
edits keep them within it exactly when it is the bound of the host. -/
theorem arrayLimit_within_iff (lookup : String → Option String) :
    (∀ heap j (edit : Edit), Edited (.ofLookup lookup) heap j →
      j.host.Has heap (Within (Config.ofLookup lookup).maxArraySize) → edit.isStore = false →
      (edit.apply (.ofLookup lookup) heap j).host.Has heap
        (Within (Config.ofLookup lookup).maxArraySize)) ∧
    ((∀ heap j, Edited (.ofLookup lookup) heap j →
      j.host.Has heap (Within (Config.ofLookup lookup).maxArraySize)) ↔
        (Config.ofLookup lookup).maxArrayBits = Limits.arrayBits) := by
  have hBits := Config.maxArrayBits_le lookup
  generalize Config.ofLookup lookup = config at hBits
  refine ⟨fun heap j edit hEdited hWithin hGrowth =>
    hEdited.within_of_growth hBits hWithin edit hGrowth, fun hAlways => ?_, ?_⟩
  · by_contra hOther
    have hLess : config.maxArrayBits < Limits.arrayBits := Nat.lt_of_le_of_ne hBits hOther
    obtain ⟨t, ⟨j, hEdited, h, hHeap, hTable⟩, hPast⟩ := leads_doubled hLess
    obtain ⟨h', hHeap', hWithin⟩ := hAlways _ j hEdited
    rw [hHeap] at hHeap'
    cases hHeap'
    exact absurd (hWithin _ t hTable) (Nat.not_le.mpr hPast)
  · intro hHost heap j hEdited
    obtain ⟨h, hHeap, hWell⟩ := hEdited.wellFormed
    refine ⟨h, hHeap, hWell.mono fun t ht => ?_⟩
    rw [Config.maxArraySize, hHost]
    exact ht.slots

private def oneBit (name : String) : Option String :=
  if name = "TVRT_MAX_ARRAY_BITS" then some "1" else none

/-- Three values take four slots where the settings allow two. -/
theorem arrayLimit_past_bound : ∃ j t, Edited (.ofLookup oneBit) (some 0) j ∧
    j.host.Has (some 0) (fun h => h.object? ⟨0⟩ = some (.table t)) ∧
    (Config.ofLookup oneBit).maxArraySize = 2 ∧ t.arrayLimit = 4 := by
  have hConfig : Config.ofLookup oneBit = { maxArrayBits := 1 } := by decide
  have hStart : Edited (.ofLookup oneBit) (some 0) { host := { heaps := #[{}] } } := .start rfl
  refine ⟨_, _, (((hStart.edit (.createTable 0 0 {})).edit (.setInt ⟨0⟩ 1 (.int 10))).edit
    (.setInt ⟨0⟩ 2 (.int 20))).edit (.setInt ⟨0⟩ 3 (.int 30)), ⟨_, rfl, rfl⟩, ?_, rfl⟩
  rw [hConfig]
  rfl

end Abi

end TaggedRuntime
