import TaggedRuntime.Abi.Entry
import TaggedRuntime.Binary64.Logarithm
import TaggedRuntime.Proofs.Abi.Answers
import TaggedRuntime.Proofs.Abi.FieldCalls
import TaggedRuntime.Proofs.Text.Utf8

/-! The last error of native code. Whatever calls are made, and whatever becomes of
the heaps in between, what is left behind is the error of the call that was
refused last. -/

namespace TaggedRuntime

section Growth

variable {loc : Location}

/-- A table is refused at the place that asked for it, whether its size or the memory is the reason.
-/
theorem createTable_raisesAt (arrayHint recordHint : Int64) :
    Run.RaisesAt loc (createTable arrayHint recordHint loc : Run Heap Handle) := by
  have hResize (table : Handle) (arraySize hashSize : Nat) : Run.RaisesAt loc (do
      if 0 < arraySize || 0 < hashSize then
        Run.host loc (HeapManager.resizeTable table arraySize hashSize)
      return table : Run Heap Handle) := by
    split
    next => exact .bind (.host _) fun _ => .pure table
    next => exact .pure table
  unfold createTable
  refine .bind .read fun config => ?_
  dsimp only
  split
  next => exact .bind (.raise _) fun _ => .bind (.host _) fun table => hResize table _ _
  next => exact .bind (.host _) fun table => hResize table _ _

/-- A slot is refused at the place that asked for it. There are two reasons, the bound of the
settings and want of memory, and both come from that place. -/
theorem ensureArraySlot_raisesAt (array : Handle) (i : Int64) :
    Run.RaisesAt loc (ensureArraySlot array i loc : Run Heap Unit) := by
  have hGrow (position : Nat) :
      Run.RaisesAt loc (growArray array position loc : Run Heap Unit) := by
    unfold growArray
    refine .bind .read fun config => ?_
    dsimp only
    split
    next =>
      exact .bind (.raise _) fun _ => .bind (.host _) fun _ => .bind (.host _) fun _ => .emit _
    next => exact .bind (.host _) fun _ => .bind (.host _) fun _ => .emit _
  unfold ensureArraySlot
  refine .bind (.host _) fun limit => ?_
  split
  next => exact hGrow _
  next => exact .pure ()

end Growth

namespace Abi

/-- A number that stands for no key is a fault, and a fault raises nothing anywhere. -/
theorem registeredKey_raisesAt {loc : Location} (id : UInt32) :
    Run.RaisesAt loc (registeredKey id) := by
  refine .bind .get fun j => ?_
  split
  next => exact .pure _
  next => exact .fault _

/-- Reading a field has no place of its own, so what it raises has an empty one. -/
theorem readField_raisesAt (table : Handle) (key : UInt32) (cache : FieldCache) :
    Run.RaisesAt {} (readField table key cache) :=
  .bind (registeredKey_raisesAt key) fun _ => .bind (.host _) fun _ => .bind .read fun _ =>
    .ofFault _

/-- Writing a field has no place of its own either. Only want of memory is raised here, and it ends
the process. -/
theorem writeField_raisesAt (table : Handle) (key : UInt32) (value : FlatValue)
    (cache : FieldCache) : Run.RaisesAt {} (writeField table key value cache) := by
  have hStore (s : Str) (v : Value) : Run.RaisesAt {} (storeCell table s v cache) := by
    refine .bind (.host _) fun t => .bind .read fun config => .bind (.ofFault _) fun written => ?_
    obtain ⟨overwritten, after⟩ := written
    cases overwritten with
    | none => exact .bind (.host _) fun _ => .pure after
    | some written => exact .bind (.host _) fun _ => .pure after
  refine .bind (registeredKey_raisesAt key) fun s => .bind (.host _) fun v => ?_
  cases v.object? with
  | none => exact hStore s v
  | some child => exact .bind (.host _) fun _ => hStore s v

/-! ### Calls -/

/-- What a call answers: a word without a tag, or a tag that says whether it was carried out. -/
inductive Reply where
  | plain (word : UInt64)
  | accepted
  | refused (r : Refusal)

def Reply.ofTagged {α : Type} : Tagged α → Reply
  | .ok _ => accepted
  | .error r => refused r

def Reply.refusal? : Reply → Option Refusal
  | refused r => some r
  | _ => none

/-- A call from native code, with what lies behind the pointers it passes. -/
inductive Request : Type 1 where
  | divide (m n : Int64) (site : Site)
  | modulo (m n : Int64) (site : Site)
  | shiftLeft (x y : Int64)
  | shiftRight (x y : Int64)
  | toInteger (x : Binary64) (site : Site)
  | ceil (x : Binary64) (site : Site)
  | floor (x : Binary64) (site : Site)
  | splitParts (x : Binary64) (site : Site)
  | logarithm (x base : Binary64)
  | isTruthy (v : FlatValue)
  | isRecord (heap : HeapRef) (v : FlatValue) (expected : Handle)
  | setColor (heap : HeapRef) (object : Handle) (color : UInt32)
  | barrier (heap : HeapRef) (owner child : Handle)
  | intern (heap : HeapRef) (name : Bytes)
  | createTable (heap : HeapRef) (arrayHint recordHint : Int64) (site : Site)
  | getField (heap : HeapRef) (table : Handle) (key : UInt32) (cache : Option FieldCache)
  | setField (heap : HeapRef) (table : Handle) (key : UInt32) (value : FlatValue)
      (cache : Option FieldCache)
  | ensureArraySlot (heap : HeapRef) (array : Handle) (i : Int64) (site : Site)
  | intFor {S : Type} (init limit step : Int64) (site : Site) (body : Body S Int64) (state : S)
  | floatFor {S : Type} (init limit step : Binary64) (site : Site) (body : Body S Binary64)
      (state : S)
  | lastErrorCode
  | lastErrorMessage (capacity : UInt32)

namespace Request

/-- Where a call says it was made; nowhere if it does not say. -/
def site : Request → Site
  | divide _ _ site => site
  | modulo _ _ site => site
  | toInteger _ site => site
  | ceil _ site => site
  | floor _ site => site
  | splitParts _ site => site
  | createTable _ _ _ site => site
  | ensureArraySlot _ _ _ site => site
  | intFor _ _ _ site _ _ => site
  | floatFor _ _ _ site _ _ => site
  | _ => {}

def make : Request → Native Reply
  | divide m n site => return .ofTagged (← calculate site (Number.floorDiv m n))
  | modulo m n site => return .ofTagged (← calculate site (Number.floorMod m n))
  | shiftLeft x y => return .plain (Number.shiftLeft x y).toUInt64
  | shiftRight x y => return .plain (Number.shiftRight x y).toUInt64
  | toInteger x site => return .ofTagged (← calculate site (Number.toInteger x))
  | ceil x site => return .ofTagged (← calculate site (Number.ceilToInteger x))
  | floor x site => return .ofTagged (← calculate site (Number.floorToInteger x))
  | splitParts x site => return .ofTagged (← calculate site (Number.splitParts x))
  | logarithm x base => return .plain (Binary64.logBase x base).bits
  | isTruthy v => return .plain (TaggedRuntime.isTruthy v).toUInt64
  | isRecord heap v expected => return .plain (← Abi.isRecord heap v expected).toUInt64
  | setColor heap object color => return .plain (← Abi.setColor heap object color).toUInt64
  | barrier heap owner child => return .ofTagged (← Abi.barrier heap owner child)
  | intern heap name => return .ofTagged (← Abi.intern heap name)
  | createTable heap arrayHint recordHint site =>
    return .ofTagged (← Abi.createTable heap arrayHint recordHint site)
  | getField heap table key cache => return .ofTagged (← Abi.getField heap table key cache).1
  | setField heap table key value cache =>
    return .ofTagged (← Abi.setField heap table key value cache).1
  | ensureArraySlot heap array i site =>
    return .ofTagged (← Abi.ensureArraySlot heap array i site)
  | intFor init limit step site body state =>
    return .ofTagged (← Abi.intFor init limit step site body state).1
  | floatFor init limit step site body state =>
    return .ofTagged (← Abi.floatFor init limit step site body state).1
  | lastErrorCode => return .plain (← Abi.lastErrorCode).toUInt64
  | lastErrorMessage capacity => return .plain (← Abi.lastErrorMessage capacity).1.toUInt64

end Request

variable {α : Type} {config : Config} {j : Journal World} {site : Site} {r : Refusal}

/-- The last error is not an operation's business. -/
def KeepsLast (x : Run World α) : Prop := ∀ last, x.Keeps fun w => w.lastError = last

/-- An operation on a heap does not see the last error, since it is no part of the heap. -/
theorem keepsLast_onHeap (heap : HeapRef) (x : Run Heap α) : KeepsLast (onHeap heap x) := by
  intro last config j hLast
  unfold left EStateM.run
  rcases heap?_cases j.host heap with hNull | ⟨i, h, rfl, hHeap⟩
  · rw [onHeap_null x config hNull]
    exact hLast
  · rw [onHeap_eq x config hHeap]
    cases x config { host := h, events := j.events, output := j.output } <;> exact hLast

/-- A calculation keeps the last error, also when it is refused. The refusal gets there later, by
the call around it. -/
theorem keepsLast_ofExcept (loc : Location) (x : Except ErrorKind α) :
    KeepsLast (Run.ofExcept loc x : Run World α) := fun _ => .ofExcept loc x

/-- Where an operation raises its errors does not depend on the heap that it runs on, nor on the
heap being there. A heap that is null is a fault, and faults raise nothing. -/
theorem raisesAt_onHeap {loc : Location} {x : Run Heap α} (hx : Run.RaisesAt loc x)
    (heap : HeapRef) : Run.RaisesAt loc (onHeap heap x) := by
  intro config j e j' hRun
  rcases heap?_cases j.host heap with hNull | ⟨i, h, rfl, hHeap⟩
  · rw [onHeap_null x config hNull] at hRun
    cases hRun
  · rw [onHeap_eq x config hHeap] at hRun
    cases hOutcome : x config { host := h, events := j.events, output := j.output } with
    | ok a after =>
        rw [hOutcome] at hRun
        cases hRun
    | error failure after =>
        rw [hOutcome] at hRun
        cases hRun
        exact hx config _ e after hOutcome

/-- The refusals of calls that are made at a site. -/
def Refusal.At (site : Site) : Refusal → Prop
  | internal => True
  | runtime e => e.isFatal = false ∧ ∃ kind, e = RuntimeError.located kind site.location

/-- An internal error may come from any place: it does not say where it was made. -/
theorem internal_at : Refusal.internal.At site := trivial

/-- What is left of the last error by a call that was refused or not. -/
def Leaves (site : Site) (j j' : Journal World) : Option Refusal → Prop
  | some r => r.At site ∧ j'.host.lastError = some r.toLastError
  | none => j'.host.lastError = j.host.lastError

theorem refuse_leaves (hAt : r.At site) (before : Journal World) :
    Ensures (refuse r : Native (Tagged α)) config j fun a j' =>
      Leaves site before j' (Reply.ofTagged a).refusal? := ⟨hAt, rfl⟩

/-- A call leaves its refusal in the slot, or the slot as it was. The operation behind it has to
raise at the site of the call and must not touch the slot. -/
theorem settle_leaves {x : Run World α} (hRaises : Run.RaisesAt site.location x)
    (hKeeps : KeepsLast x) :
    Ensures (settle x) config j fun a j' => Leaves site j j' (Reply.ofTagged a).refusal? := by
  unfold Ensures
  rw [settle_run]
  cases hRun : x config j with
  | ok a j' =>
      have hSlot := hKeeps j.host.lastError config j rfl
      rw [left_of_ok (x := x config) hRun] at hSlot
      exact hSlot
  | error failure j' =>
      cases failure with
      | fault f => exact ⟨trivial, rfl⟩
      | raised e =>
          cases hFatal : e.isFatal with
          | true => simp only [hFatal, if_true]
          | false =>
              simp only [hFatal]
              exact ⟨⟨hFatal, hRaises config j e j' hRun⟩, rfl⟩

/-- A call that only computes leaves its refusal in the slot. It needs no heap. -/
theorem calculate_leaves (site : Site) (x : Except ErrorKind α) :
    Ensures (calculate site x) config j fun a j' =>
      Leaves site j j' (Reply.ofTagged a).refusal? :=
  settle_leaves (.ofExcept x) (keepsLast_ofExcept _ x)

theorem onHeap_leaves {x : Run Heap α} (hRaises : Run.RaisesAt site.location x)
    (heap : HeapRef) :
    Ensures (settle (onHeap heap x)) config j fun a j' =>
      Leaves site j j' (Reply.ofTagged a).refusal? :=
  settle_leaves (raisesAt_onHeap hRaises heap) (keepsLast_onHeap heap x)

/-- A call answers with what was computed, and leaves what the computation left. -/
theorem answer_leaves {x : Native α} (answer : α → Reply)
    (hx : Ensures x config j fun a j' => Leaves site j j' (answer a).refusal?) :
    Ensures (do return answer (← x)) config j fun reply j' => Leaves site j j' reply.refusal? :=
  .bind (hx.mono fun _ _ hLeaves => .pure hLeaves)

/-- The code of the last error is read without changing anything, and it is zero where there was no
error. -/
theorem lastErrorCode_run (config : Config) (j : Journal World) :
    Abi.lastErrorCode config j = .ok ((j.host.lastError.map (·.code)).getD 0) j := by
  obtain ⟨⟨heaps, last⟩, events, output⟩ := j
  cases last <;> rfl

/-- The text of the last error is read without changing anything. The answer is its full length in
bytes, and as many of the bytes as there is room for. -/
theorem lastErrorMessage_run (capacity : UInt32) (config : Config) (j : Journal World)
    {text : String} (hText : (j.host.lastError.map (·.message)).getD "" = text) :
    Abi.lastErrorMessage capacity config j =
      .ok (UInt32.ofNat (Text.toBytes text).length, (Text.toBytes text).take capacity.toNat) j := by
  obtain ⟨⟨heaps, last⟩, events, output⟩ := j
  subst hText
  cases last with
  | some e => rfl
  | none =>
      have hEmpty : Text.toBytes "" = [] := Text.toBytes_ofList []
      rw [Option.map_none, Option.getD_none, hEmpty, List.take_nil]
      rfl

/-- Setting a colour never refuses, so the slot stays as it is. -/
theorem setColor_leaves (heap : HeapRef) (object : Handle) (color : UInt32) :
    Ensures (Abi.setColor heap object color) config j fun _ j' =>
      j'.host.lastError = j.host.lastError := by
  unfold Ensures
  rcases setColor_cases heap object color with hNone | ⟨c, hRun⟩
  · rw [hNone]
  · have hKeeps := keepsLast_onHeap heap (Run.host {} (Heap.setColor object c)) _ config j rfl
    rw [hRun]
    cases hSet : onHeap heap (Run.host {} (Heap.setColor object c)) config j with
    | ok a j' =>
        rw [Run.left_of_ok hSet] at hKeeps
        exact hKeeps
    | error failure j' => rfl

/-- Asking for a record never refuses either: a null heap is answered with no. -/
theorem isRecord_leaves (heap : HeapRef) (v : FlatValue) (expected : Handle) :
    Ensures (Abi.isRecord heap v expected) config j fun _ j' =>
      j'.host.lastError = j.host.lastError := by
  refine .bind (.get ?_)
  split
  next => exact .pure rfl
  next h _ => cases TaggedRuntime.isRecord v expected h <;> exact .pure rfl

/-- A field that cannot be read leaves its refusal in the slot. A missing cache is one of the
reasons. -/
theorem getField_leaves (heap : HeapRef) (table : Handle) (key : UInt32)
    (cache : Option FieldCache) :
    Ensures (Abi.getField heap table key cache) config j fun a j' =>
      Leaves {} j j' (Reply.ofTagged a.1).refusal? := by
  cases cache with
  | none => exact .bind ((refuse_leaves internal_at j).mono fun _ _ h => .pure h)
  | some cache =>
      have hRaises : Run.RaisesAt ({} : Site).location (readField table key cache) :=
        readField_raisesAt table key cache
      refine .bind ((onHeap_leaves hRaises heap).mono fun a j' hLeaves => ?_)
      cases a with
      | error r => exact .pure hLeaves
      | ok read =>
          dsimp only
          cases FlatValue.ofValue? read.1 with
          | some v => exact .pure hLeaves
          | none => exact .bind ((refuse_leaves internal_at j).mono fun _ _ h => .pure h)

/-- A field that cannot be written leaves its refusal in the slot, and a written one leaves the slot
alone. -/
theorem setField_leaves (heap : HeapRef) (table : Handle) (key : UInt32) (value : FlatValue)
    (cache : Option FieldCache) :
    Ensures (Abi.setField heap table key value cache) config j fun a j' =>
      Leaves {} j j' (Reply.ofTagged a.1).refusal? := by
  cases cache with
  | none => exact .bind ((refuse_leaves internal_at j).mono fun _ _ h => .pure h)
  | some cache =>
      have hRaises : Run.RaisesAt ({} : Site).location (writeField table key value cache) :=
        writeField_raisesAt table key value cache
      refine .bind ((onHeap_leaves hRaises heap).mono fun a j' hLeaves => ?_)
      cases a <;> exact .pure hLeaves

/-- A loop leaves the refusal of its bounds in the slot. Calls that the body makes have returned by
then and are calls of their own. -/
theorem looped_leaves {R S : Type} (site : Site) (range : Except ErrorKind R)
    (loop : R → Option Unit × S) (state : S) :
    Ensures (looped site range loop state) config j fun a j' =>
      Leaves site j j' (Reply.ofTagged a.1).refusal? := by
  refine .bind ((calculate_leaves site _).mono fun a j' hLeaves => ?_)
  cases a <;> exact .pure hLeaves

/-- A call leaves its own refusal as the last error, and if it was not refused the one before. There
is one case for each call. -/
theorem Request.make_leaves (request : Request) (config : Config) (j : Journal World) :
    Ensures request.make config j fun reply j' =>
      Leaves request.site j j' reply.refusal? := by
  cases request with
  | divide m n site => exact answer_leaves _ (calculate_leaves site _)
  | modulo m n site => exact answer_leaves _ (calculate_leaves site _)
  | toInteger x site => exact answer_leaves _ (calculate_leaves site _)
  | ceil x site => exact answer_leaves _ (calculate_leaves site _)
  | floor x site => exact answer_leaves _ (calculate_leaves site _)
  | splitParts x site => exact answer_leaves _ (calculate_leaves site _)
  | shiftLeft x y => exact .pure rfl
  | shiftRight x y => exact .pure rfl
  | logarithm x base => exact .pure rfl
  | isTruthy v => exact .pure rfl
  | isRecord heap v expected =>
      exact answer_leaves _ (isRecord_leaves heap v expected)
  | setColor heap object color =>
      exact answer_leaves _ (setColor_leaves heap object color)
  | barrier heap owner child =>
      have hRaises : Run.RaisesAt ({} : Site).location
        (Run.host {} (writeBarrier (σ := Heap) owner child)) := .host _
      exact answer_leaves _ (onHeap_leaves hRaises heap)
  | intern heap name =>
      have hRaises : Run.RaisesAt ({} : Site).location
        (Run.host {} (Heap.registerKey name)) := .host _
      exact answer_leaves _ (onHeap_leaves hRaises heap)
  | createTable heap arrayHint recordHint site =>
      have hRaises : Run.RaisesAt site.location _ := createTable_raisesAt arrayHint recordHint
      exact answer_leaves _ (onHeap_leaves hRaises heap)
  | ensureArraySlot heap array i site =>
      have hRaises : Run.RaisesAt site.location _ := ensureArraySlot_raisesAt array i
      exact answer_leaves _ (onHeap_leaves hRaises heap)
  | getField heap table key cache =>
      exact answer_leaves _ (getField_leaves heap table key cache)
  | setField heap table key value cache =>
      exact answer_leaves _ (setField_leaves heap table key value cache)
  | intFor init limit step site body state =>
      have hEq := intFor_eq init limit step site body state
      exact answer_leaves _ (hEq ▸ looped_leaves site _ _ state)
  | floatFor init limit step site body state =>
      have hEq := floatFor_eq init limit step site body state
      exact answer_leaves _ (hEq ▸ looped_leaves site _ _ state)
  | lastErrorCode =>
      refine answer_leaves _ ?_
      rw [Ensures, lastErrorCode_run]
      exact rfl
  | lastErrorMessage capacity =>
      refine answer_leaves _ ?_
      rw [Ensures, lastErrorMessage_run capacity config j rfl]
      exact rfl

/-! ### Sessions -/

/-- The calls of a process, the last one first, by where they were made and what they answered. -/
abbrev Calls := List (Site × Reply)

/-- The last refusal, with where the call was made. -/
def Calls.lastRefusal? (calls : Calls) : Option (Site × Refusal) :=
  calls.findSome? fun (site, reply) => reply.refusal?.map (site, ·)

/-- What a process may come to by calls that did not end it, each under settings of its own. In
between it may do to its heaps whatever it likes. The calls are in the order in which they
returned, so that those a loop body makes come before the loop they are made in. -/
inductive Session : Calls → Journal World → Prop where
  | start {j : Journal World} (hFresh : j.host.lastError = none) : Session [] j
  | call {calls reply} {j j' : Journal World} (hSession : Session calls j) (config : Config)
      (request : Request) (hCall : request.make config j = .ok reply j') :
      Session ((request.site, reply) :: calls) j'
  | elsewhere {calls} {j j' : Journal World} (hSession : Session calls j)
      (hSlot : j'.host.lastError = j.host.lastError) : Session calls j'

/-- The slot holds the last refusal of the session, and that refusal was made at the site of its
call. The induction is on the session, with one lemma for each call. -/
theorem Session.lastError_eq {calls : Calls} (hSession : Session calls j) :
    j.host.lastError = calls.lastRefusal?.map (·.2.toLastError) ∧
    ∀ site r, calls.lastRefusal? = some (site, r) → r.At site := by
  induction hSession with
  | start hFresh => exact ⟨hFresh, fun _ _ hNone => by cases hNone⟩
  | @call calls reply j j' _ config request hCall ih =>
      have hLeaves := (request.make_leaves _ _).of_answered hCall
      simp only [Calls.lastRefusal?, List.findSome?_cons] at ih ⊢
      cases hRefusal : reply.refusal? with
      | none =>
          rw [hRefusal] at hLeaves
          exact ⟨Eq.trans hLeaves ih.1, ih.2⟩
      | some r =>
          rw [hRefusal] at hLeaves
          refine ⟨hLeaves.2, ?_⟩
          rintro site r' ⟨⟩
          exact hLeaves.1
  | elsewhere _ hSlot ih => exact ⟨hSlot.trans ih.1, ih.2⟩

/-- A file name as errors show it: nothing for a null pointer, and otherwise the text up to the
first zero byte, or a question mark if the bytes there are no text. -/
def Site.Shows (site : Site) (name : String) : Prop :=
  match site.file with
  | none => name = ""
  | some bytes =>
    Text.toBytes name = bytes.takeWhile (· ≠ 0) ∨
      (∀ text, Text.toBytes text ≠ bytes.takeWhile (· ≠ 0)) ∧ name = "?"

/-- The name that an error carries is what the pointer of its site shows. A pointer that is null
shows nothing, and bytes that are no text show a question mark. -/
theorem Site.shows_location (site : Site) : site.Shows site.location.file := by
  obtain ⟨file, line⟩ := site
  cases file with
  | none => exact rfl
  | some bytes =>
      simp only [Shows, location]
      cases hText : Text.decode? (bytes.takeWhile (· ≠ 0)) with
      | some name => exact Or.inl ((Text.decode?_eq_some_iff _ name).mp hText)
      | none =>
          refine Or.inr ⟨fun text hBytes => ?_, rfl⟩
          rw [(Text.decode?_eq_some_iff _ text).mpr hBytes] at hText
          cases hText

theorem Site.location_line (site : Site) : site.location.line = site.line := by
  obtain ⟨file, line⟩ := site
  cases file <;> rfl

/-- The code of a refusal and its text, with the place of the call in front if it has a line. -/
def Refusal.Renders (site : Site) (r : Refusal) : Prop :=
  (r.code = ErrorKind.internalCode ∧ r.message = "internal error") ∨
  ∃ kind : ErrorKind, ∃ name, kind.isFatal = false ∧ site.Shows name ∧
    r.code = kind.code ∧ r.code ≠ ErrorKind.internalCode ∧
    r.message = (if 0 < site.line then
      "file " ++ name ++ ": line " ++ toString site.line.toNat ++ ": " else "") ++ kind.message

/-- No error of the runtime has the code of internal errors, so the code tells which of the two it
was. -/
theorem code_ne_internalCode (kind : ErrorKind) : kind.code ≠ ErrorKind.internalCode := by
  cases kind <;> simp [ErrorKind.code, ErrorKind.internalCode]

/-- The text of an error starts with its place, if it has a line, and ends with the message of its
kind. -/
theorem located_message (kind : ErrorKind) (loc : Location) :
    (RuntimeError.located kind loc).message = (if 0 < loc.line then
      "file " ++ loc.file ++ ": line " ++ toString loc.line.toNat ++ ": " else "") ++
        kind.message := by
  unfold RuntimeError.located
  split
  next => rfl
  next => exact (String.empty_append).symm

/-- A refusal that was made at a site has the code and the text that the site and the kind give. An
internal error has a text of its own and no place. -/
theorem Refusal.At.renders (hAt : r.At site) : r.Renders site := by
  cases r with
  | internal => exact Or.inl ⟨rfl, rfl⟩
  | runtime e =>
      obtain ⟨hFatal, kind, rfl⟩ := hAt
      have hCode : (RuntimeError.located kind site.location).code = kind.code :=
        congrArg ErrorKind.code (RuntimeError.located_kind kind _)
      have hMessage := located_message kind site.location
      rw [site.location_line] at hMessage
      rw [RuntimeError.isFatal, RuntimeError.located_kind] at hFatal
      exact Or.inr ⟨kind, site.location.file, hFatal, site.shows_location, hCode,
        hCode.trans_ne (code_ne_internalCode kind), hMessage⟩

/-- The slot of the last error follows the answers. It holds the code and the text of the call
that was refused last, and only a refusal changes it; every call is answered unless a fatal
error ends the process. -/
theorem lastError_follows {calls : Calls} (hSession : Session calls j) (config : Config) :
    ∃ code text,
      (match calls.lastRefusal? with
        | none => code = 0 ∧ text = ""
        | some (site, r) => code = r.code ∧ text = r.message ∧ r.Renders site) ∧
      Abi.lastErrorCode config j = .ok code j ∧
      (∀ capacity, Abi.lastErrorMessage capacity config j =
        .ok (UInt32.ofNat (Text.toBytes text).length,
          (Text.toBytes text).take capacity.toNat) j) ∧
      ((Text.toBytes text).length < 2 ^ 32 →
        (UInt32.ofNat (Text.toBytes text).length).toNat = (Text.toBytes text).length) ∧
      ∀ request : Request, match request.make config j with
        | .ok reply j' => reply.refusal? = none → j'.host.lastError = j.host.lastError
        | .error e _ => e.isFatal = true := by
  obtain ⟨hSlot, hAt⟩ := hSession.lastError_eq
  have hKeeps (request : Request) : match request.make config j with
      | .ok reply j' => reply.refusal? = none → j'.host.lastError = j.host.lastError
      | .error e _ => e.isFatal = true := by
    have hLeaves := request.make_leaves config j
    cases hCall : request.make config j with
    | ok reply j' =>
        intro hReply
        have hKept := hLeaves.of_answered hCall
        rw [hReply] at hKept
        exact hKept
    | error e j' => exact hLeaves.of_ended hCall
  have hLength (text : String) (hFits : (Text.toBytes text).length < 2 ^ 32) :
      (UInt32.ofNat (Text.toBytes text).length).toNat = (Text.toBytes text).length :=
    UInt32.toNat_ofNat_of_lt' hFits
  cases hLast : calls.lastRefusal? with
  | none =>
      rw [hLast] at hSlot
      exact ⟨0, "", ⟨rfl, rfl⟩, by rw [lastErrorCode_run, hSlot]; rfl,
        fun capacity => lastErrorMessage_run capacity config j (by rw [hSlot]; rfl),
        hLength "", hKeeps⟩
  | some last =>
      obtain ⟨site, r⟩ := last
      rw [hLast] at hSlot
      exact ⟨r.code, r.message, ⟨rfl, rfl, (hAt site r hLast).renders⟩,
        by rw [lastErrorCode_run, hSlot]; rfl,
        fun capacity => lastErrorMessage_run capacity config j (by rw [hSlot]; rfl),
        hLength r.message, hKeeps⟩

/-- Line three of a file whose name ends at a zero. -/
private def someSite : Site := ⟨some [97, 0, 98], 3⟩

/-- A session with a call that answered and one that divided by zero. The buffer for the text is too
short, so only the start of it is copied. -/
theorem lastError_follows_quotient :
    ∃ j, Session [({}, .plain 4),
        (someSite, .refused (.runtime (.located .divideByZero someSite.location)))] j ∧
      Abi.lastErrorCode {} j = .ok 41001 j ∧
      Abi.lastErrorMessage 6 {} j = .ok (41, [102, 105, 108, 101, 32, 97]) j := by
  have hSession := Session.call (.call (.start (j := { host := {} }) rfl) {}
    (.divide 1 0 someSite) rfl) {} (.shiftLeft 1 2) rfl
  refine ⟨_, hSession, ?_⟩
  obtain ⟨code, text, ⟨hCode, hText, _⟩, hCodeRun, hMessageRun, _⟩ :=
    lastError_follows hSession {}
  have hMessage : text = String.ofList "file a: line 3: attempt to divide by zero".toList := by
    rw [hText]
    decide
  have hBytes := Text.toBytes_ofList "file a: line 3: attempt to divide by zero".toList
  rw [hCode] at hCodeRun
  have hSix := hMessageRun 6
  rw [hMessage, hBytes] at hSix
  exact ⟨hCodeRun, hSix⟩

end Abi

end TaggedRuntime
