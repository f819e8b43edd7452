import TaggedRuntime.Proofs.Abi.Answers
import TaggedRuntime.Proofs.Abi.FieldCalls

/-! Fields from the boundary. Whatever calls native code made on a heap, a field
that is read has the value that was stored last in the same table under the
same name. -/

namespace TaggedRuntime.Abi

/-- A call from native code, with what lies behind the pointers it passes. -/
inductive Call where
  | createTable (arrayHint recordHint : Int64) (site : Site)
  | intern (name : Bytes)
  | setField (table : Handle) (id : UInt32) (value : FlatValue) (cache : Option FieldCache)
  | getField (table : Handle) (id : UInt32) (cache : Option FieldCache)
  | ensureArraySlot (array : Handle) (i : Int64) (site : Site)
  | barrier (owner child : Handle)
  | setColor (object : Handle) (color : UInt32)

/-- Makes a call, and tells what it did for field values. -/
def Call.make (heap : HeapRef) : Call → Native History
  | createTable arrayHint recordHint site => do
    match ← Abi.createTable heap arrayHint recordHint site with
    | .ok table => return [.created table]
    | .error _ => return []
  | intern name => do
    match ← Abi.intern heap name with
    | .ok id => return [.interned id name]
    | .error _ => return []
  | setField table id value cache => do
    match (← Abi.setField heap table id value cache).1 with
    | .ok () => return [.stored table id value]
    | .error _ => return []
  | getField table id cache => do
    let _ ← Abi.getField heap table id cache
    return []
  | ensureArraySlot array i site => do
    let _ ← Abi.ensureArraySlot heap array i site
    return []
  | barrier owner child => do
    let _ ← Abi.barrier heap owner child
    return []
  | setColor object color => do
    let _ ← Abi.setColor heap object color
    return []

/-- Runs of calls on one heap, new at the start, none of which ended the
process. Each call is made under settings of its own. -/
inductive Runs (heap : HeapRef) : History → Journal World → Prop where
  | start (hNew : j.host.heap? heap = some { number }) : Runs heap [] j
  | call (hRuns : Runs heap history j) (config : Config) (call : Call)
      (hCall : call.make heap config j = .ok done j') : Runs heap (done ++ history) j'

variable {heap : HeapRef} {history : History} {config : Config} {j : Journal World} {h : Heap}

theorem represents_new (number : Nat) : Represents [] { number } where
  interned b s hs := by simp at hs
  canonical id s hKey := by simp [Heap.key?] at hKey
  keys id name := by simp [Heap.key?]
  created r hMem := by cases hMem
  stored r id v hMem := by cases hMem
  tables r o hObject := by simp [Heap.object?] at hObject

/-- The heap of a run stands for its history. -/
def Stands (heap : HeapRef) (history : History) (j : Journal World) : Prop :=
  ∃ h, j.host.heap? heap = some h ∧ Represents history h

/-- Setting a colour keeps what a heap stands for, whatever the colour and the object. -/
theorem setColor_stands (hStands : Stands heap history j) (object : Handle) (color : UInt32) :
    Ensures (setColor heap object color) config j fun _ => Stands heap history := by
  obtain ⟨h, hHeap, hRep⟩ := hStands
  unfold Ensures
  rcases setColor_cases heap object color with hNone | ⟨c, hRun⟩
  · rw [hNone]
    exact ⟨h, hHeap, hRep⟩
  · obtain ⟨back, hBack, _, hHeapRun⟩ :=
      onHeap_run (Run.host {} (Heap.setColor object c)) config hHeap
    have hSet : (Run.host {} (Heap.setColor object c)).Ensures config
        { host := h, events := j.events, output := j.output }
        (fun _ h => Represents history h) (Represents history) :=
      Run.Ensures.host _ (Heap.setColor_ensures c hRep fun h' hColored => hRep.recolored hColored)
    unfold Run.Ensures at hSet
    rw [hRun, hHeapRun]
    cases hOutcome : Run.host {} (Heap.setColor object c) config
        { host := h, events := j.events, output := j.output } with
    | ok _ j' =>
        rw [hOutcome] at hSet
        exact ⟨j'.host, hBack j', hSet⟩
    | error _ j' => exact ⟨h, hHeap, hRep⟩

/-- A call whose operation keeps what the heap stands for, or adds to it. The answer tells which of
the two it was. -/
theorem settle_stands {α : Type} {x : Run Heap α} {after : α → History}
    {answer : Tagged α → Journal World → Prop} (hStands : Stands heap history j)
    (hx : ∀ journal : Journal Heap, Represents history journal.host →
      x.Ensures config journal (fun a h => Represents (after a) h) (Represents history))
    (hDone : ∀ a j', Stands heap (after a) j' → answer (.ok a) j')
    (hFailed : ∀ r j', Stands heap history j' → answer (.error r) j') :
    Ensures (settle (onHeap heap x)) config j answer := by
  obtain ⟨h, hHeap, hRep⟩ := hStands
  apply Ensures.settle hHeap fun journal hj => hx journal (hj ▸ hRep)
  · intro a j' h' hHeap' hRep'
    exact hDone a j' ⟨h', hHeap', hRep'⟩
  · intro r j' h' hHeap' hRep'
    exact hFailed r j' ⟨h', hHeap', hRep'⟩

/-- A call keeps the history, or adds what it did to it. There is one case for each call, and what
was done is part of its answer. -/
theorem Call.make_stands (hStands : Stands heap history j) (call : Call) :
    Ensures (call.make heap) config j fun done => Stands heap (done ++ history) := by
  cases call with
  | createTable arrayHint recordHint site =>
      apply Ensures.bind
      apply settle_stands hStands fun _ hRep =>
        createTable_ensures hRep arrayHint recordHint site.location
      · intro r j' hStands'
        exact Ensures.pure hStands'
      · intro _ j' hStands'
        exact Ensures.pure hStands'
  | intern name =>
      apply Ensures.bind
      apply settle_stands hStands fun _ hRep => intern_ensures hRep name {}
      · intro id j' hStands'
        exact Ensures.pure hStands'
      · intro _ j' hStands'
        exact Ensures.pure hStands'
  | setField table id value cache =>
      cases cache with
      | none => exact hStands
      | some cache =>
          apply Ensures.bind
          apply Ensures.bind
          apply settle_stands hStands fun _ hRep => writeField_ensures hRep table id value cache
          · intro after j' hStands'
            exact Ensures.pure hStands'
          · intro _ j' hStands'
            exact Ensures.pure hStands'
  | getField table id cache =>
      cases cache with
      | none => exact hStands
      | some cache =>
          apply Ensures.bind
          apply Ensures.bind
          apply settle_stands hStands fun _ hRep => readField_ensures hRep table id cache
          · intro answer j' hStands'
            dsimp only
            cases FlatValue.ofValue? answer.1 <;> exact hStands'
          · intro _ j' hStands'
            exact Ensures.pure hStands'
  | ensureArraySlot array i site =>
      apply Ensures.bind
      apply settle_stands hStands fun _ hRep => ensureArraySlot_ensures hRep array i site.location
      · intro _ j' hStands'
        exact Ensures.pure hStands'
      · intro _ j' hStands'
        exact Ensures.pure hStands'
  | barrier owner child =>
      apply Ensures.bind
      apply settle_stands hStands fun _ hRep => barrier_ensures hRep owner child {}
      · intro _ j' hStands'
        exact Ensures.pure hStands'
      · intro _ j' hStands'
        exact Ensures.pure hStands'
  | setColor object color => exact Ensures.bind (setColor_stands hStands object color)

/-- The heap of a run stands for the history of the run. The induction is on the run, with one lemma
for each call. -/
theorem Runs.stands (hRuns : Runs heap history j) : Stands heap history j := by
  induction hRuns with
  | start hNew => exact ⟨_, hNew, represents_new _⟩
  | call _ config call hCall ih => exact (call.make_stands ih).of_answered hCall

/-- A field of a table answers with what the table's own look-up finds. Nothing else can go wrong
when the key, the table and the form of the value are there. -/
theorem getField_run {s : Str} {t : Table} {table : Handle} {id : UInt32} {v : FlatValue}
    (hHeap : j.host.heap? heap = some h) (hKey : h.key? id = some s)
    (hTable : h.object? table = some (.table t)) (hChained : t.Chained)
    (hForm : FlatValue.ofValue? (t.getStr s) = some v) (config : Config) (cache : FieldCache) :
    ∃ after j', getField heap table id (some cache) config j = .ok (.ok v, some after) j' := by
  obtain ⟨back, _, _, hRun⟩ := onHeap_run (readField table id cache) config hHeap
  have hKey' : ({ host := h, events := j.events, output := j.output } : Journal Heap).host.key? id =
    some s := hKey
  obtain ⟨after, hRead⟩ := readField_run hKey' hTable hChained config cache
  have hSettle : settle (onHeap heap (readField table id cache)) config j =
      .ok (.ok (t.getStr s, after)) (back { host := h, events := j.events, output := j.output }) := by
    rw [settle_run, hRun, hRead]
  refine ⟨after, back { host := h, events := j.events, output := j.output }, ?_⟩
  unfold getField
  simp only [bind, ReaderT.bind, EStateM.bind, hSettle, hForm]
  rfl

/-- After any run of calls on a heap, a field is read, with any cache and under
any settings, as the value stored last in the same table under a key registered
for the same name, in its canonical form, or as one of the nils if that value
was one or nothing was stored. -/
theorem getField_answers_last (hRuns : Runs heap history j) (config : Config) (table : Handle)
    (hTable : .created table ∈ history) (id : UInt32) (name : Bytes)
    (hName : .interned id name ∈ history) (cache : FieldCache) :
    ∃ v after j', getField heap table id (some cache) config j = .ok (.ok v, some after) j' ∧
      match lastStored table name history with
      | some w => if TaggedValue.isNil w then TaggedValue.isNil v = true else v = w.canonical
      | none => TaggedValue.isNil v = true := by
  obtain ⟨h, hHeap, hRep⟩ := hRuns.stands
  obtain ⟨s, hKey, rfl⟩ := (hRep.keys id name).mp hName
  obtain ⟨o, hObject⟩ := Option.isSome_iff_exists.mp (hRep.created table hTable)
  obtain ⟨t, rfl, hWell, hFields⟩ := hRep.tables table o hObject
  have hAgrees : Agrees (t.getStr s).nonNil? (lastStored table s.bytes history) := by
    rw [Table.getStr_eq]
    exact (hFields s).1 (hRep.canonical id s hKey)
  obtain ⟨v, hForm, hNone, hSome⟩ := ofValue?_of_agrees hAgrees
  obtain ⟨after, j', hRead⟩ :=
    getField_run hHeap hKey hObject hWell.toChained hForm config cache
  refine ⟨v, after, j', hRead, ?_⟩
  cases hLast : lastStored table s.bytes history with
  | none => exact hNone hLast
  | some w => exact hSome w hLast

private def longName : Bytes := List.replicate 41 0

/-- A heap with one table, and with keys of which all have the long name. -/
private def withKeys (keys : Array Str) : Journal World :=
  { host := { heaps := #[{ objects := #[⟨.white, .table {}⟩], keys, serial := keys.size }] } }

/-- A long name that was registered twice names one field. -/
theorem getField_answers_last_long : ∃ history j, Runs (some 0) history j ∧
    ∃ after j', getField (some 0) ⟨0⟩ 1 (some ⟨7⟩) { inlineCache := false } j =
      .ok (.ok { tag := FlatValue.tagInt, bits := 5 }, some after) j' := by
  have hStart : Runs (some 0) [] { host := { heaps := #[{ number := 0 }] } } := .start rfl
  have hCreate : (Call.createTable 0 0 {}).make (some 0) {} { host := { heaps := #[{ number := 0 }] } } =
      .ok [.created ⟨0⟩] (withKeys #[]) := rfl
  have hFirst : (Call.intern longName).make (some 0) {} (withKeys #[]) =
      .ok [.interned 0 longName] (withKeys #[⟨0, 0, longName⟩]) := rfl
  have hSecond : (Call.intern longName).make (some 0) {} (withKeys #[⟨0, 0, longName⟩]) =
      .ok [.interned 1 longName] (withKeys #[⟨0, 0, longName⟩, ⟨1, 0, longName⟩]) := rfl
  obtain ⟨j, hStore⟩ : ∃ j, (Call.setField ⟨0⟩ 0 { tag := FlatValue.tagInt, bits := 5 }
      (some .unset)).make (some 0) {} (withKeys #[⟨0, 0, longName⟩, ⟨1, 0, longName⟩]) =
        .ok [.stored ⟨0⟩ 0 { tag := FlatValue.tagInt, bits := 5 }] j := ⟨_, rfl⟩
  have hRuns := (((hStart.call {} _ hCreate).call {} _ hFirst).call {} _ hSecond).call {} _ hStore
  obtain ⟨v, after, j', hRead, hLast⟩ := getField_answers_last hRuns { inlineCache := false } ⟨0⟩
    (by decide) 1 longName (by decide) ⟨7⟩
  have hValue : v = { tag := FlatValue.tagInt, bits := 5 } := hLast
  exact ⟨_, j, hRuns, after, j', hValue ▸ hRead⟩

end TaggedRuntime.Abi
