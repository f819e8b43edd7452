import TaggedRuntime.Proofs.Abi.LastError
import TaggedRuntime.Proofs.Abi.Soundness
import TaggedRuntime.Proofs.Heap.Operation
import TaggedRuntime.Proofs.Trace.Lines
import TaggedRuntime.Proofs.Trace.Operations

/-! What a program may ask of the runtime: the operations of the library and of its heaps, and the
calls of native code. Whatever it asks, the tables of all heaps stay well-formed as long as each
bucket that is written through holds a key. What is reported can then be told from the answer and
from the array parts before and after. -/

namespace TaggedRuntime

/-- An operation of the host, with its failure handed to the caller. -/
def Run.attempt {σ α : Type} (x : HostM σ α) : Run σ (Except HeapFailure α) := fun _ j =>
  match x j.host with
  | .ok a s => .ok (.ok a) { j with host := s }
  | .error e s => .ok (.error e) { j with host := s }

namespace Abi

/-- The length of the array part of a table of a heap. -/
def World.arrayLimit? (w : World) (heap : HeapRef) (array : Handle) : Option Nat :=
  (w.heap? heap).bind (·.arrayLimit? array)

/-- An operation of the library, with its failure handed to the program. -/
def answered {α : Type} (x : Run World α) : Native (Except Failure α) := fun config j =>
  match x config j with
  | .ok a j' => .ok (.ok a) j'
  | .error e j' => .ok (.error e) j'

/-- Another heap for the process. -/
def newHeap (number : Nat) : Native HeapRef :=
  modifyGet fun j => (some j.host.heaps.size,
    { j with host := { j.host with heaps := j.host.heaps.push { number } } })

end Abi

namespace Process

open Abi

/-- Overwrites a field of a table in its place, if it has a cell, and gives what it held. -/
def overwriteCell (table : Handle) (s : Str) (v : Value) (cache : FieldCache) :
    Run Heap (Option Value × FieldCache) := do
  let t ← Run.host {} (Heap.table table)
  let (overwritten, cache) ← Run.ofFault (TaggedRuntime.overwriteField (← read) t s v cache)
  match overwritten with
  | some (old, t) =>
    Run.host {} (Heap.setObject table (.table t))
    return (some old, cache)
  | none => return (none, cache)

/-- An operation of the library that a program uses itself. -/
inductive Operation : Type → Type 1 where
  /-- What a heap offers by itself. -/
  | ask {α : Type} (heap : HeapRef) (op : Heap.Operation α) : Operation (Except HeapFailure α)
  | makeStr (heap : HeapRef) (op : Strings.Maker) : Operation Str
  | write (s : Str) : Operation Unit
  /-- A calculation, the bounds of a loop, or a conversion. -/
  | calculate {α : Type} (loc : Location) (x : Except ErrorKind α) : Operation α
  /-- Makes an error without failing with it. -/
  | error (kind : ErrorKind) (loc : Location) : Operation RuntimeError
  | createTable (heap : HeapRef) (arrayHint recordHint : Int64) (loc : Location) :
      Operation Handle
  | ensureArraySlot (heap : HeapRef) (array : Handle) (i : Int64) (loc : Location) :
      Operation Unit
  | checkArrayMetatable (heap : HeapRef) (array : Handle) (loc : Location) : Operation Unit
  | probe {T K C : Type} [TableLayout T K C] (t : T) (key : K) (cache : FieldCache) :
      Operation (Probe × FieldCache)
  | getField {T K C : Type} [TableLayout T K C] (t : T) (key : K) (cache : FieldCache) :
      Operation (C × FieldCache)
  | overwriteField {T K C : Type} [TableLayout T K C] (t : T) (key : K) (v : C)
      (cache : FieldCache) : Operation (Option (C × T) × FieldCache)
  /-- Overwrites a field of a table of a heap, where the one before is of a table anywhere. -/
  | overwriteCell (heap : HeapRef) (table : Handle) (s : Str) (v : Value) (cache : FieldCache) :
      Operation (Option Value × FieldCache)

namespace Operation

variable {α : Type}

def run : Operation α → Run World α
  | ask heap op => onHeap heap (Run.attempt op.run)
  | makeStr heap op => onHeap heap op.make
  | write s => Strings.write s
  | calculate loc x => Run.ofExcept loc x
  | error kind loc => Run.error kind loc
  | createTable heap arrayHint recordHint loc =>
    onHeap heap (TaggedRuntime.createTable (σ := Heap) arrayHint recordHint loc)
  | ensureArraySlot heap array i loc => onHeap heap (TaggedRuntime.ensureArraySlot array i loc)
  | checkArrayMetatable heap array loc =>
    onHeap heap (TaggedRuntime.checkArrayMetatable array loc)
  | probe t key cache => do Run.ofFault (TaggedRuntime.probe (← read) t key cache)
  | getField t key cache => do Run.ofFault (TaggedRuntime.getField (← read) t key cache)
  | overwriteField t key v cache => do
    Run.ofFault (TaggedRuntime.overwriteField (← read) t key v cache)
  | overwriteCell heap table s v cache => onHeap heap (Process.overwriteCell table s v cache)

/-- Whether the bucket that an operation writes through holds a key. -/
def keyed : Operation α → World → Bool
  | ask heap op, w => (w.heap? heap).all op.keyed
  | _, _ => true

/-- The error that an operation produced: the one it failed with, or the one it was to make. -/
def error? : Operation α → Except Failure α → Option RuntimeError
  | error _ _, .ok e => some e
  | _, outcome => Run.raised? outcome

/-- The growth of the array part in which a slot was made to exist. -/
def grown : Operation α → World → World → List Event
  | ensureArraySlot heap array _ loc, w, w' =>
    Event.grown loc (w.arrayLimit? heap array) (w'.arrayLimit? heap array)
  | _, _, _ => []

end Operation

/-- An action of a program: an operation of the library, or a call of native code. -/
inductive Action : Type → Type 1 where
  | library {α : Type} (op : Operation α) : Action (Except Failure α)
  | newHeap (number : Nat) : Action HeapRef
  | calculate {α : Type} (site : Site) (x : Except ErrorKind α) : Action (Tagged α)
  | setColor (heap : HeapRef) (object : Handle) (color : UInt32) : Action Bool
  | isRecord (heap : HeapRef) (v : FlatValue) (expected : Handle) : Action Bool
  | barrier (heap : HeapRef) (owner child : Handle) : Action (Tagged Unit)
  | intern (heap : HeapRef) (name : Bytes) : Action (Tagged UInt32)
  | createTable (heap : HeapRef) (arrayHint recordHint : Int64) (site : Site) :
      Action (Tagged Handle)
  | ensureArraySlot (heap : HeapRef) (array : Handle) (i : Int64) (site : Site) :
      Action (Tagged Unit)
  | getField (heap : HeapRef) (table : Handle) (key : UInt32) (cache : Option FieldCache) :
      Action (Tagged FlatValue × Option FieldCache)
  | setField (heap : HeapRef) (table : Handle) (key : UInt32) (value : FlatValue)
      (cache : Option FieldCache) : Action (Tagged Unit × Option FieldCache)
  | intFor {S : Type} (init limit step : Int64) (site : Site) (body : Body S Int64) (state : S) :
      Action (Tagged Bool × S)
  | floatFor {S : Type} (init limit step : Binary64) (site : Site) (body : Body S Binary64)
      (state : S) : Action (Tagged Bool × S)
  | lastErrorCode : Action UInt32
  | lastErrorMessage (capacity : UInt32) : Action (UInt32 × Bytes)

namespace Action

variable {α : Type}

def run : Action α → Native α
  | library op => answered op.run
  | newHeap number => Abi.newHeap number
  | calculate site x => Abi.calculate site x
  | setColor heap object color => Abi.setColor heap object color
  | isRecord heap v expected => Abi.isRecord heap v expected
  | barrier heap owner child => Abi.barrier heap owner child
  | intern heap name => Abi.intern heap name
  | createTable heap arrayHint recordHint site => Abi.createTable heap arrayHint recordHint site
  | ensureArraySlot heap array i site => Abi.ensureArraySlot heap array i site
  | getField heap table key cache => Abi.getField heap table key cache
  | setField heap table key value cache => Abi.setField heap table key value cache
  | intFor init limit step site body state => Abi.intFor init limit step site body state
  | floatFor init limit step site body state => Abi.floatFor init limit step site body state
  | lastErrorCode => Abi.lastErrorCode
  | lastErrorMessage capacity => Abi.lastErrorMessage capacity

/-- Whether the bucket that an action writes through holds a key. Native code writes through none.
-/
def keyed : Action α → World → Bool
  | library op, w => op.keyed w
  | _, _ => true

/-- The error that an action produced, as its answer has it. An internal error is none. -/
def error? : Action α → α → Option RuntimeError
  | library op, answer => op.error? answer
  | calculate .., answer => answer.error?
  | barrier .., answer => answer.error?
  | intern .., answer => answer.error?
  | createTable .., answer => answer.error?
  | ensureArraySlot .., answer => answer.error?
  | getField .., answer => answer.1.error?
  | setField .., answer => answer.1.error?
  | intFor .., answer => answer.1.error?
  | floatFor .., answer => answer.1.error?
  | _, _ => none

/-- The growth of the array part in which a slot was made to exist. -/
def grown : Action α → World → World → List Event
  | library op, w, w' => op.grown w w'
  | ensureArraySlot heap array _ site, w, w' =>
    Event.grown site.location (w.arrayLimit? heap array) (w'.arrayLimit? heap array)
  | _, _, _ => []

/-- What an action reports: the error that it produced or ended the process with, and the growth of
an array part. -/
def report (action : Action α) (w : World) (outcome : Except RuntimeError α) (w' : World) :
    List Event :=
  Event.made (produced? action.error? outcome) ++ action.grown w w'

end Action

end Process

/-! ### The tables stay well-formed -/

/-- An operation whose failure is handed to the caller leaves what it leaves otherwise. -/
theorem Run.left_attempt {σ α : Type} (x : HostM σ α) (config : Config) (j : Journal σ) :
    (left (Run.attempt x config) j).host = left x j.host := by
  unfold left EStateM.run Run.attempt
  cases x j.host <;> rfl

/-- Making strings keeps everything that can be said of the tables, since it touches none. -/
theorem Strings.Maker.make_keeps {p : Table → Prop} (op : Strings.Maker) :
    op.make.Keeps (Heap.Tables p) := by
  rcases op.make_eq with ⟨loc, bytes, hMake⟩ | ⟨s, _, _, hMake⟩ | ⟨kind, loc, hMake⟩
  · exact hMake ▸ .host loc (Heap.keeps_newStr bytes)
  · exact hMake ▸ .pure s
  · exact hMake ▸ .raise kind loc

namespace Abi

variable {α : Type}

theorem left_answered (x : Run World α) (config : Config) (j : Journal World) :
    left (answered x config) j = left (x config) j := by
  unfold left EStateM.run answered
  cases x config j <;> rfl

/-- Another heap is behind the next reference. Nothing is reported, and nothing is refused. -/
theorem newHeap_answers (number : Nat) :
    Answers (newHeap number) (fun w => some w.heaps.size)
      fun w => { w with heaps := w.heaps.push { number } } := fun _ _ => rfl

/-- The question for a record is answered without a change. -/
theorem isRecord_answers (heap : HeapRef) (v : FlatValue) (expected : Handle) :
    ∃ answer, Answers (Abi.isRecord heap v expected) answer id := by
  refine ⟨fun w => ((w.heap? heap).bind
    (TaggedRuntime.isRecord v expected : HostM Heap Bool).run').getD false, fun config j => ?_⟩
  have hGet : (getThe (Journal World) : Native (Journal World)) config j = .ok j j := rfl
  rw [Abi.isRecord, bind_run, hGet]
  unfold World.heap? EStateM.run' EStateM.run
  dsimp only
  cases heap.bind fun i => j.host.heaps[i]? with
  | none => rfl
  | some h =>
      dsimp only [Option.bind_some]
      cases TaggedRuntime.isRecord v expected h <;> rfl

theorem lastErrorCode_answers :
    Answers lastErrorCode (fun w => (w.lastError.map (·.code)).getD 0) id :=
  lastErrorCode_run

theorem lastErrorMessage_answers (capacity : UInt32) :
    Answers (lastErrorMessage capacity) (fun w =>
      let text := (w.lastError.map (·.message)).getD ""
      (UInt32.ofNat (Text.toBytes text).length, (Text.toBytes text).take capacity.toNat)) id :=
  fun config j => lastErrorMessage_run capacity config j rfl

end Abi

namespace Process

open Abi

variable {α : Type}

/-- The field is stored under its key in the table that is there. Where it has no cell nothing is
written. -/
theorem overwriteCell_keeps (table : Handle) (s : Str) (v : Value) (cache : FieldCache) :
    (overwriteCell table s v cache).Keeps (Heap.Tables Table.WellFormed) := by
  intro config j hTables
  rcases Heap.table_cases table j.host with ⟨t, hTable⟩ | ⟨f, hFault⟩
  · have hWell := hTables table t hTable
    obtain ⟨after, hOverwrite⟩ := overwriteField_eq hWell.toChained s config cache v
    have hRead : (MonadReader.read : Run Heap Config) config j = .ok config j := rfl
    have hCell : (Run.ofFault (.ok (t.overwriteStr? s v, after)) :
        Run Heap (Option (Value × Table) × FieldCache)) config j =
          .ok (t.overwriteStr? s v, after) j := rfl
    cases hWrite : t.overwriteStr? s v with
    | some written =>
        have hPut := hTables.put hTable
          ((Table.Operation.overwriteStr s v).wellFormed_apply hWell)
        rw [Table.Operation.apply_overwriteStr hWrite] at hPut
        unfold overwriteCell
        simp only [Run.left_bind, Run.host_run, Heap.table_run, hTable, hRead, hOverwrite, hCell]
        rw [hWrite]
        exact hPut
    | none =>
        unfold overwriteCell
        simp only [Run.left_bind, Run.host_run, Heap.table_run, hTable, hRead, hOverwrite, hCell]
        rw [hWrite]
        exact hTables
  · unfold overwriteCell
    rw [Run.left_bind, Run.host_run, hFault]
    exact hTables

/-- The tables stay well-formed, if a bucket that is written through holds a key. There is one case
for each operation, and only one of them needs the condition. -/
theorem Operation.sound_run (op : Operation α) (config : Config) {j : Journal World}
    (hSound : j.host.Sound) (hKeyed : op.keyed j.host = true) :
    (left (op.run config) j).host.Sound := by
  cases op with
  | ask heap op =>
      refine sound_onHeap_of hSound fun h hHeap => ?_
      rw [keyed, hHeap] at hKeyed
      rw [Run.left_attempt]
      exact op.tables_run (hSound heap h hHeap) hKeyed
  | makeStr heap op => exact sound_onHeap op.make_keeps heap config j hSound
  | write s => exact hSound
  | calculate loc x => exact Run.Keeps.ofExcept loc x config j hSound
  | error kind loc =>
      have hRun : (error kind loc).run config j = _ := Run.error_run kind loc config j
      rwa [Run.left_of_ok hRun, Run.host_reported]
  | createTable heap arrayHint recordHint loc =>
      exact sound_onHeap (createTable_sound arrayHint recordHint loc) heap config j hSound
  | ensureArraySlot heap array i loc =>
      exact sound_onHeap (ensureArraySlot_sound array i loc) heap config j hSound
  | checkArrayMetatable heap array loc =>
      exact sound_onHeap (checkArrayMetatable_sound array loc) heap config j hSound
  | probe t key cache => exact Run.Keeps.bind .read (fun _ => .ofFault _) config j hSound
  | getField t key cache => exact Run.Keeps.bind .read (fun _ => .ofFault _) config j hSound
  | overwriteField t key v cache => exact Run.Keeps.bind .read (fun _ => .ofFault _) config j hSound
  | overwriteCell heap table s v cache =>
      exact sound_onHeap (overwriteCell_keeps table s v cache) heap config j hSound

/-- Every action leaves all tables well-formed, under any settings. The calls of native code need no
condition for it, since they write through no bucket without a key. -/
theorem Action.sound_run (action : Action α) (config : Config) {j : Journal World}
    (hSound : j.host.Sound) (hKeyed : action.keyed j.host = true) :
    (left (action.run config) j).host.Sound := by
  cases action with
  | library op =>
      change (left (answered op.run config) j).host.Sound
      rw [left_answered]
      exact op.sound_run config hSound hKeyed
  | newHeap number =>
      exact (newHeap_answers number).keeps (fun _ hSound => hSound.push number) config j hSound
  | calculate site x => exact sound_settle (.ofExcept _ x) config j hSound
  | setColor heap object color => exact sound_setColor heap object color config j hSound
  | isRecord heap v expected =>
      obtain ⟨answer, hAnswers⟩ := isRecord_answers heap v expected
      exact hAnswers.keeps (fun _ hSound => hSound) config j hSound
  | barrier heap owner child =>
      exact sound_settle (sound_onHeap (.host {} (Heap.keeps_writeBarrier owner child)) heap) config
        j hSound
  | intern heap name =>
      exact sound_settle (sound_onHeap (.host {} (Heap.keeps_registerKey name)) heap) config j hSound
  | createTable heap arrayHint recordHint site =>
      exact sound_settle (sound_onHeap (createTable_sound arrayHint recordHint _) heap) config
        j hSound
  | ensureArraySlot heap array i site =>
      exact sound_settle (sound_onHeap (ensureArraySlot_sound array i _) heap) config j hSound
  | getField heap table key cache => exact sound_getField heap table key cache config j hSound
  | setField heap table key value cache =>
      exact sound_setField heap table key value cache config j hSound
  | intFor init limit step site body state =>
      change (left (Abi.intFor init limit step site body state config) j).host.Sound
      rw [intFor_eq]
      exact sound_looped site _ _ state config j hSound
  | floatFor init limit step site body state =>
      change (left (Abi.floatFor init limit step site body state config) j).host.Sound
      rw [floatFor_eq]
      exact sound_looped site _ _ state config j hSound
  | lastErrorCode => exact lastErrorCode_answers.keeps (fun _ hSound => hSound) config j hSound
  | lastErrorMessage capacity =>
      exact (lastErrorMessage_answers capacity).keeps (fun _ hSound => hSound) config j hSound

end Process

/-! ### What is reported -/

theorem Event.sized_made (e? : Option RuntimeError) : ∀ e ∈ Event.made e?, e.Sized := by
  cases e? with
  | none => exact nofun
  | some e => exact List.forall_mem_singleton.mpr trivial

/-- The growth of an array part has the two sizes of that part. -/
theorem Event.sized_grown {loc : Location} {before after : Option Nat}
    (hBefore : ∀ limit, before = some limit → limit < 2 ^ 64)
    (hAfter : ∀ limit, after = some limit → limit < 2 ^ 64) :
    ∀ e ∈ Event.grown loc before after, e.Sized := by
  unfold Event.grown
  split
  next before after =>
    split
    next => exact List.forall_mem_singleton.mpr ⟨hBefore _ rfl, hAfter _ rfl⟩
    next => exact nofun
  next => exact nofun

/-- An operation of the host reports nothing, also when it is refused: the error is made by the
caller, if at all. -/
theorem Run.attempt_reports {σ α : Type} (x : HostM σ α) : Run.Reports (Run.attempt x) := by
  intro config j trace events
  simp only [Run.attempt, Journal.withEvents]
  cases x j.host <;>
    simp only [Run.raised?, Event.made, Option.toList_none, List.map_nil, traced_nil]

namespace Abi

variable {α : Type} {config : Config} {j : Journal World}

/-- An operation of the library reports in a program what it reports by itself. Its failure is an
answer there, so the program goes on. -/
theorem reportsFrom_answered {x : Run World α} {report : Except Failure α → World → List Event}
    {report' : Except RuntimeError (Except Failure α) → World → List Event}
    (hx : ReportsFrom x config j report)
    (hSame : ∀ outcome w, report' (.ok outcome) w = report outcome w) :
    ReportsFrom (answered x) config j report' := by
  intro trace events
  unfold answered
  rw [hx trace events]
  cases x config.quiet (j.withEvents []) with
  | ok a j' =>
      dsimp only
      rw [hSame]
  | error e j' =>
      dsimp only
      rw [hSame]

/-- An array part of a well-formed table has fewer slots than there are words. -/
theorem World.Sound.arrayLimit?_lt {w : World} (hSound : w.Sound) {heap : HeapRef} {array : Handle}
    {limit : Nat} (hLimit : w.arrayLimit? heap array = some limit) : limit < 2 ^ 64 := by
  obtain ⟨h, hHeap, hLimit⟩ := Option.bind_eq_some_iff.mp hLimit
  unfold Heap.arrayLimit? at hLimit
  split at hLimit
  next t hTable =>
    cases hLimit
    exact (hSound heap h hHeap array t hTable).slots.trans_lt (by decide)
  next => cases hLimit

/-- Making a slot exist reports the growth of the array part of the heap that is meant. A heap that
is null has no array part, before and after. -/
theorem reportsFrom_ensureArraySlot (hSound : j.host.Sound)
    (hBits : config.maxArrayBits ≤ Limits.arrayBits) (heap : HeapRef) (array : Handle) (i : Int64)
    (loc : Location) :
    ReportsFrom (onHeap heap (TaggedRuntime.ensureArraySlot array i loc)) config j fun outcome w =>
      Event.made (Run.raised? outcome) ++
        Event.grown loc (j.host.arrayLimit? heap array) (w.arrayLimit? heap array) := by
  rcases heap?_cases j.host heap with hNull | ⟨n, h, rfl, hHeap⟩
  · refine ReportsFrom.congr (Run.Reports.unchanged (.fault .nullPointer) (.fault _)
      (Event.grown_self _)) fun trace events => ?_
    exact onHeap_null (j := j.withEvents events) _ _ hNull
  · refine reportsFrom_onHeap hHeap
      (ensureArraySlot_reportsFrom (hSound (some n) h hHeap) hBits array i) fun outcome h' => ?_
    obtain ⟨hIn, hGet⟩ := Array.getElem?_eq_some_iff.mp hHeap
    simp [World.arrayLimit?, World.heap?, hIn, hGet]

/-- Setting a colour reports nothing, whether there is such a colour and object or not. -/
theorem setColor_reports (heap : HeapRef) (object : Handle) (color : UInt32) :
    Reports (setColor heap object color) fun _ => none := by
  rcases setColor_cases heap object color with hNone | ⟨c, hRun⟩
  · have hAnswers : Answers (setColor heap object color) (fun _ => false) id := hNone
    exact hAnswers.reports fun _ => rfl
  · intro config j trace events
    have hSet := reports_onHeap (.host {} (Heap.setColor object c)) heap config j trace events
    rw [hRun, hRun, hSet]
    cases onHeap heap (Run.host {} (Heap.setColor object c)) config.quiet (j.withEvents []) with
    | ok _ j' => rfl
    | error _ j' =>
        change _ = EStateM.Result.ok false (Journal.withEvents _ (traced trace events []))
        rw [traced_nil]
        rfl

theorem refuse_answers {β : Type} (b : β) :
    Answers (do return (← refuse .internal, b) : Native (Tagged α × β))
      (fun _ => (.error .internal, b))
      fun w => { w with lastError := some Refusal.internal.toLastError } := fun _ _ => rfl

/-- The internal error of a call reports nothing. -/
theorem refuse_reports {β : Type} (b : β) :
    Reports (do return (← refuse .internal, b) : Native (Tagged α × β)) (·.1.error?) :=
  (refuse_answers b).reports fun _ => rfl

/-- Reading a field reports the error in its answer, and none if there is no cache to read with. -/
theorem getField_reports (heap : HeapRef) (table : Handle) (key : UInt32)
    (cache : Option FieldCache) : Reports (getField heap table key cache) (·.1.error?) := by
  cases cache with
  | none => exact refuse_reports none
  | some cache =>
      have hRead := reports_settle (reports_onHeap (readField_reports table key cache) heap)
      refine hRead.andThen fun answer => ?_
      cases answer with
      | error e => exact ⟨_, _, .pure _, fun _ => by cases e <;> rfl⟩
      | ok read =>
          dsimp only
          cases FlatValue.ofValue? read.1 with
          | some v => exact ⟨_, _, .pure _, fun _ => rfl⟩
          | none => exact ⟨_, _, refuse_answers (some read.2), fun _ => rfl⟩

/-- Writing a field reports the error in its answer. -/
theorem setField_reports (heap : HeapRef) (table : Handle) (key : UInt32) (value : FlatValue)
    (cache : Option FieldCache) : Reports (setField heap table key value cache) (·.1.error?) := by
  cases cache with
  | none => exact refuse_reports none
  | some cache =>
      have hWrite := reports_settle (reports_onHeap (writeField_reports table key value cache) heap)
      refine hWrite.andThen fun answer => ?_
      cases answer with
      | error e => exact ⟨_, _, .pure _, fun _ => by cases e <;> rfl⟩
      | ok after => exact ⟨_, _, .pure _, fun _ => rfl⟩

/-- A loop reports the error of its bounds. What its body does is its own. -/
theorem looped_reports {R S : Type} (site : Site) (range : Except ErrorKind R)
    (loop : R → Option Unit × S) (state : S) :
    Reports (looped site range loop state) (·.1.error?) := by
  refine (reports_settle (.ofExcept site.location range)).andThen fun answer => ?_
  cases answer with
  | error e => exact ⟨_, _, .pure _, fun _ => by cases e <;> rfl⟩
  | ok range => exact ⟨_, _, .pure _, fun _ => rfl⟩

end Abi

namespace Process

open Abi

variable {α : Type} {config : Config} {j : Journal World}

/-- Overwriting a field reports nothing but its error. -/
theorem overwriteCell_reports (table : Handle) (s : Str) (v : Value) (cache : FieldCache) :
    Run.Reports (overwriteCell table s v cache) := by
  refine .bind (.host {} _) fun t => .read (fun config => ?_) fun _ => rfl
  refine .bind (.ofFault _) fun written => ?_
  obtain ⟨overwritten, after⟩ := written
  cases overwritten with
  | none => exact .pure (none, after)
  | some written => exact .bind (.host {} _) fun _ => .pure (some written.1, after)

/-- An operation reports the error that it produced, and the growth of an array part. Only making a
slot exist reports a growth, and an operation of a heap reports nothing at all. There is one case
for each operation. -/
theorem Operation.reportsFrom_run (op : Operation α) (hSound : j.host.Sound)
    (hBits : config.maxArrayBits ≤ Limits.arrayBits) :
    ReportsFrom op.run config j fun outcome w =>
      Event.made (op.error? outcome) ++ op.grown j.host w := by
  have hPlain {x : Run World α} (hx : Run.Reports x) : ReportsFrom x config j fun outcome _ =>
      Event.made (Run.raised? outcome) ++ [] := by
    simpa only [List.append_nil] using hx config j
  cases op with
  | ask heap op => exact hPlain (reports_onHeap (Run.attempt_reports op.run) heap)
  | makeStr heap op => exact hPlain (reports_onHeap op.make_reports heap)
  | write s => exact hPlain (Run.write_reports s.bytes)
  | calculate loc x => exact hPlain (.ofExcept loc x)
  | error kind loc =>
      exact Run.reportsFrom_emitted (fun trace events => Run.error_run kind loc _ _) rfl
  | createTable heap arrayHint recordHint loc =>
      exact hPlain (reports_onHeap (createTable_reports arrayHint recordHint) heap)
  | ensureArraySlot heap array i loc =>
      exact reportsFrom_ensureArraySlot hSound hBits heap array i loc
  | checkArrayMetatable heap array loc =>
      exact hPlain (reports_onHeap (checkArrayMetatable_reports array) heap)
  | probe t key cache => exact hPlain (lookUp_reports fun _ => rfl)
  | getField t key cache => exact hPlain (lookUp_reports fun _ => rfl)
  | overwriteField t key v cache => exact hPlain (lookUp_reports fun _ => rfl)
  | overwriteCell heap table s v cache =>
      exact hPlain (reports_onHeap (overwriteCell_reports table s v cache) heap)

/-- An action reports the error in its answer, or the one that it ends the process with, and the
growth of an array part. Internal errors are none of these. There is one case for each action. -/
theorem Action.reportsFrom_run (action : Action α) (hSound : j.host.Sound)
    (hBits : config.maxArrayBits ≤ Limits.arrayBits) :
    ReportsFrom action.run config j (action.report j.host) := by
  have hPlain {x : Native α} {error? : α → Option RuntimeError} (hx : Reports x error?) :
      ReportsFrom x config j fun outcome _ => Event.made (produced? error? outcome) ++ [] := by
    simpa only [List.append_nil] using hx config j
  cases action with
  | library op => exact reportsFrom_answered (op.reportsFrom_run hSound hBits) fun _ _ => rfl
  | newHeap number => exact hPlain ((newHeap_answers number).reports fun _ => rfl)
  | calculate site x => exact hPlain (reports_settle (.ofExcept _ x))
  | setColor heap object color => exact hPlain (setColor_reports heap object color)
  | isRecord heap v expected =>
      obtain ⟨answer, hAnswers⟩ := isRecord_answers heap v expected
      exact hPlain (hAnswers.reports fun _ => rfl)
  | barrier heap owner child => exact hPlain (reports_settle (reports_onHeap (.host {} _) heap))
  | intern heap name => exact hPlain (reports_settle (reports_onHeap (.host {} _) heap))
  | createTable heap arrayHint recordHint site =>
      exact hPlain (reports_settle (reports_onHeap (createTable_reports arrayHint recordHint) heap))
  | ensureArraySlot heap array i site =>
      refine reportsFrom_settle (reportsFrom_ensureArraySlot hSound hBits heap array i _)
        fun outcome w last => ?_
      rw [← produced?_settled]
      rfl
  | getField heap table key cache => exact hPlain (getField_reports heap table key cache)
  | setField heap table key value cache =>
      exact hPlain (setField_reports heap table key value cache)
  | intFor init limit step site body state =>
      have hEq := intFor_eq init limit step site body state
      exact hPlain (x := Abi.intFor init limit step site body state)
        (hEq ▸ looped_reports site _ _ state)
  | floatFor init limit step site body state =>
      have hEq := floatFor_eq init limit step site body state
      exact hPlain (x := Abi.floatFor init limit step site body state)
        (hEq ▸ looped_reports site _ _ state)
  | lastErrorCode => exact hPlain (lastErrorCode_answers.reports fun _ => rfl)
  | lastErrorMessage capacity =>
      exact hPlain ((lastErrorMessage_answers capacity).reports fun _ => rfl)

/-- The events that an action reports have sizes that are words, since an array part holds no more
slots than a host makes. -/
theorem Action.sized_report (action : Action α) {w w' : World} (outcome : Except RuntimeError α)
    (hSound : w.Sound) (hSound' : w'.Sound) : ∀ e ∈ action.report w outcome w', e.Sized := by
  have hGrown (loc : Location) (heap : HeapRef) (array : Handle) :
      ∀ e ∈ Event.grown loc (w.arrayLimit? heap array) (w'.arrayLimit? heap array), e.Sized :=
    Event.sized_grown (fun _ => hSound.arrayLimit?_lt) fun _ => hSound'.arrayLimit?_lt
  refine List.forall_mem_append.mpr ⟨Event.sized_made _, ?_⟩
  cases action with
  | library op =>
      cases op with
      | ensureArraySlot heap array i loc => exact hGrown loc heap array
      | _ => exact nofun
  | ensureArraySlot heap array i site => exact hGrown site.location heap array
  | _ => exact nofun

end Process

end TaggedRuntime
