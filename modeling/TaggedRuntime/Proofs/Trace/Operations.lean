import TaggedRuntime.Proofs.Abi.FieldCalls
import TaggedRuntime.Proofs.Heap.EnsuredSlot
import TaggedRuntime.Proofs.Heap.Tables
import TaggedRuntime.Proofs.Strings.Identity
import TaggedRuntime.Proofs.Trace.Reports

/-! What each operation of the runtime reports: the error that it fails with, and in one place the
growth of an array part. -/

namespace TaggedRuntime

open Run (Reports)

variable {loc : Location}

/-! ### Operations that report nothing but their error -/

/-- Making a table reports the error that it is refused with. The resize behind it reports nothing,
although it may move entries. -/
theorem createTable_reports (arrayHint recordHint : Int64) :
    Reports (createTable arrayHint recordHint loc : Run Heap Handle) := by
  have hResize (table : Handle) (arraySize hashSize : Nat) : Reports (do
      if 0 < arraySize || 0 < hashSize then
        Run.host loc (HeapManager.resizeTable table arraySize hashSize)
      return table : Run Heap Handle) := by
    split
    next => exact .bind (.host loc _) fun _ => .pure table
    next => exact .pure table
  unfold createTable
  refine .read (fun config => ?_) fun _ => rfl
  dsimp only
  split
  next => exact .bind (.raise _ loc) fun _ => .bind (.host loc _) fun table => hResize table _ _
  next => exact .bind (.host loc _) fun table => hResize table _ _

/-- Looking for a metatable reports the error if there is one. -/
theorem checkArrayMetatable_reports (array : Handle) :
    Reports (checkArrayMetatable array loc : Run Heap Unit) := by
  refine .bind (.host loc _) fun metatable => ?_
  split
  next => exact .raise _ loc
  next => exact .pure ()

theorem Strings.Maker.make_reports (op : Strings.Maker) : Reports op.make := by
  rcases op.make_eq with ⟨loc, bytes, hMake⟩ | ⟨s, _, _, hMake⟩ | ⟨kind, loc, hMake⟩
  · exact hMake ▸ .host loc _
  · exact hMake ▸ .pure s
  · exact hMake ▸ .raise kind loc

theorem Run.write_reports {σ : Type} (bytes : Bytes) : Reports (Run.write bytes : Run σ Unit) := by
  intro config j trace events
  change _ = EStateM.Result.ok () (Journal.withEvents _ (traced trace events []))
  rw [traced_nil]
  rfl

/-- A look-up by the buckets of a table, which may use the cache or not. -/
theorem lookUp_reports {σ α : Type} {x : Config → Except Fault α}
    (hQuiet : ∀ config, x config = x config.quiet) :
    Reports (do Run.ofFault (x (← read)) : Run σ α) :=
  .read (fun _ => .ofFault _) fun config => congrArg Run.ofFault (hQuiet config)

namespace Abi

/-- A key that was never registered is a fault, and faults are not reported. -/
theorem registeredKey_reports (id : UInt32) : Run.Reports (registeredKey id) := by
  refine .get (g := fun h => (h.key? id).elim (throw (.fault (.unknownKey id))) pure)
    (fun h => ?_) fun j => ?_
  · cases h.key? id with
    | none => exact .fault _
    | some s => exact .pure s
  · cases j.host.key? id <;> rfl

theorem readField_reports (table : Handle) (key : UInt32) (cache : FieldCache) :
    Run.Reports (readField table key cache) :=
  .bind (registeredKey_reports key) fun _ => .bind (.host {} _) fun _ => lookUp_reports fun _ => rfl

/-- Storing in a cell reports nothing but its error, also where the table is rebuilt for it. -/
theorem storeCell_reports (table : Handle) (s : Str) (v : Value) (cache : FieldCache) :
    Run.Reports (storeCell table s v cache) := by
  refine .bind (.host {} _) fun t => .read (fun config => ?_) fun _ => rfl
  refine .bind (.ofFault _) fun written => ?_
  obtain ⟨overwritten, after⟩ := written
  cases overwritten with
  | none => exact .bind (.host {} _) fun _ => .pure after
  | some written => exact .bind (.host {} _) fun _ => .pure after

theorem writeField_reports (table : Handle) (key : UInt32) (value : FlatValue)
    (cache : FieldCache) : Run.Reports (writeField table key value cache) := by
  refine .bind (registeredKey_reports key) fun s => .bind (.host {} _) fun v => ?_
  cases v.object? with
  | none => exact storeCell_reports table s v cache
  | some child => exact .bind (.host {} _) fun _ => storeCell_reports table s v cache

end Abi

/-! ### Growth of an array part -/

/-- The length of the array part of a table. -/
def Heap.arrayLimit? (h : Heap) (r : Handle) : Option Nat :=
  match h.object? r with
  | some (.table t) => some t.arrayLimit
  | _ => none

theorem Heap.arrayLimit?_eq {h : Heap} {r : Handle} {t : Table}
    (hTable : h.object? r = some (.table t)) : h.arrayLimit? r = some t.arrayLimit := by
  rw [Heap.arrayLimit?, hTable]

/-- What is reported when an array part got longer. -/
def Event.grown (loc : Location) (before after : Option Nat) : List Event :=
  match before, after with
  | some before, some after => if before < after then [.arrayGrown before after loc] else []
  | _, _ => []

/-- An array part that is as long as before has not grown. -/
@[simp]
theorem Event.grown_self (limit : Option Nat) : Event.grown loc limit limit = [] := by
  cases limit <;> simp [Event.grown]

/-- Making a slot exist reports the error that it fails with, and the growth of the array part. The
size that is reported is the length of the array part afterwards, which is where the tables have to
be well-formed: in one that is not, a rebuild behind the growth could undo it. -/
theorem ensureArraySlot_reportsFrom {config : Config} {j : Journal Heap}
    (hTables : j.host.Tables Table.WellFormed) (hBits : config.maxArrayBits ≤ Limits.arrayBits)
    (array : Handle) (i : Int64) :
    ReportsFrom (ensureArraySlot array i loc : Run Heap Unit) config j fun outcome h =>
      Event.made (Run.raised? outcome) ++
        Event.grown loc (j.host.arrayLimit? array) (h.arrayLimit? array) := by
  have hNone : Event.grown loc (j.host.arrayLimit? array) (j.host.arrayLimit? array) = [] :=
    Event.grown_self _
  rcases Heap.table_cases array j.host with ⟨t, hTable⟩ | ⟨f, hFault⟩
  · have hWell := hTables array t hTable
    have hMax : twoPow config.maxArrayBits ≤ twoPow Limits.arrayBits := twoPow_le_twoPow hBits
    by_cases hOut : i.toInt < 1 ∨ t.arrayLimit < i.toInt ∧ twoPow config.maxArrayBits < i.toInt
    · exact (Reports.unchanged (.raise .invalidArrayIndex loc) (.raise _ loc) hNone).congr
        fun trace events => ensureArraySlot_of_unreachable (j := j.withEvents events)
          { config with trace } hTable hWell.slots loc hBits hOut
    · rw [not_or, not_and, Int.not_lt, Int.not_lt] at hOut
      obtain ⟨hFirst, hLast⟩ := hOut
      by_cases hSlot : i.toInt ≤ t.arrayLimit
      · exact (Reports.unchanged (.pure ()) (.pure ()) hNone).congr fun trace events =>
          ensureArraySlot_of_slot (j := j.withEvents events) hTable loc hFirst hSlot
      · have hPast := Int.not_le.mp hSlot
        obtain ⟨t', hResize, hEnsured⟩ :=
          ensuredSlot_of_resized hWell hFirst hPast (by have := hLast hPast; omega)
        have hLimit : t'.arrayLimit = nextPowerOfTwo i.toInt.toNat := hEnsured.arrayLimit.eq_twoPow
        have hReaches := hEnsured.arrayLimit.bound
        refine Run.reportsFrom_emitted (s := j.host.withObject array (.table t'))
          (fun trace events => ensureArraySlot_of_resized (j := j.withEvents events)
            { config with trace } hTable loc hFirst hPast (hLast hPast) hResize) ?_
        rw [Heap.arrayLimit?_eq hTable,
          Heap.arrayLimit?_eq (Heap.object?_withObject_self hTable _), ← hLimit]
        exact if_pos (by omega)
  · exact (Reports.unchanged (.fault f) (.fault f) hNone).congr fun trace events =>
      ensureArraySlot_fault (j := j.withEvents events) hFault i loc

end TaggedRuntime
