import TaggedRuntime.Proofs.Abi.FlatValue
import TaggedRuntime.Proofs.Field.Transparency

/-! What a heap stands for after calls from native code: the field values that
were stored last. A short name has one string in a heap, a long name many, and
a table has an entry for a string only if that string is one of the heap's for
its contents. -/

namespace TaggedRuntime.Abi

/-- What a call that was carried out did, as far as field values go. -/
inductive Success where
  | created (table : Handle)
  | interned (id : UInt32) (name : Bytes)
  | stored (table : Handle) (id : UInt32) (value : FlatValue)
  deriving DecidableEq

/-- What calls did, the last one first. -/
abbrev History := List Success

/-- The value stored last in a table under a key registered for a name. -/
def lastStored (table : Handle) (name : Bytes) : History → Option FlatValue
  | [] => none
  | .stored r id v :: rest =>
    if r = table ∧ .interned id name ∈ rest then some v else lastStored table name rest
  | .created _ :: rest => lastStored table name rest
  | .interned _ _ :: rest => lastStored table name rest

variable {history : History} {h h' : Heap} {r : Handle} {id : UInt32} {s : Str} {t t' : Table}
  {v : FlatValue} {a : Value}

/-- A value that was stored last under a name was stored, under a number that the name was
registered for. -/
theorem stored_of_lastStored {name : Bytes} (h : lastStored r name history = some v) :
    ∃ id, .stored r id v ∈ history ∧ .interned id name ∈ history := by
  induction history with
  | nil => cases h
  | cons success rest ih =>
      have hLater (hRest : lastStored r name rest = some v) :
          ∃ id, .stored r id v ∈ success :: rest ∧ .interned id name ∈ success :: rest := by
        obtain ⟨id, hStored, hName⟩ := ih hRest
        exact ⟨id, List.mem_cons_of_mem _ hStored, List.mem_cons_of_mem _ hName⟩
      cases success with
      | created _ => exact hLater h
      | interned _ _ => exact hLater h
      | stored q id w =>
          simp only [lastStored] at h
          split at h
          next hHere =>
            obtain ⟨rfl, hName⟩ := hHere
            cases h
            exact ⟨id, List.mem_cons_self, List.mem_cons_of_mem _ hName⟩
          next => exact hLater h

/-- What a table holds under a key is the value stored last. -/
def Agrees (held : Option Value) (last : Option FlatValue) : Prop :=
  match held with
  | some a => ∃ v, last = some v ∧ v.Decodes a
  | none => ∀ v, last = some v → TaggedValue.isNil v = true

/-- A value agrees with the flat value that it was made of, also when it is one of the nils and is
not held at all. -/
theorem agrees_nonNil? (h : v.Decodes a) : Agrees a.nonNil? (some v) := by
  cases hNil : a.isNil with
  | true =>
      rw [(Value.nonNil?_eq_none_iff a).mpr hNil]
      intro w hw
      cases hw
      exact h.2 ▸ hNil
  | false =>
      rw [(Value.nonNil?_eq_some_iff a a).mpr ⟨rfl, hNil⟩]
      exact ⟨v, rfl, h⟩

/-- A cell that agrees with the value stored last has its canonical form, or is one of the nils.
Where nothing was stored it is one of the nils, too. -/
theorem ofValue?_of_agrees {cell : Value} {last : Option FlatValue}
    (hAgrees : Agrees cell.nonNil? last) : ∃ v, FlatValue.ofValue? cell = some v ∧
      (last = none → TaggedValue.isNil v = true) ∧
      ∀ w, last = some w →
        if TaggedValue.isNil w then TaggedValue.isNil v = true else v = w.canonical := by
  cases hHeld : cell.nonNil? with
  | some a =>
      obtain ⟨rfl, hLive⟩ := (Value.nonNil?_eq_some_iff cell a).mp hHeld
      rw [hHeld] at hAgrees
      obtain ⟨w, rfl, hForm, hNil⟩ := hAgrees
      refine ⟨w.canonical, hForm, fun hNone => ?_, fun w' hLast => ?_⟩
      · cases hNone
      · cases hLast
        simp [← hNil, hLive]
  | none =>
      rw [hHeld] at hAgrees
      obtain ⟨v, hForm, hNil⟩ :=
        FlatValue.ofValue?_of_isNil ((Value.nonNil?_eq_none_iff cell).mp hHeld)
      refine ⟨v, hForm, fun _ => hNil, fun w hLast => ?_⟩
      have hLastNil : TaggedValue.isNil w = true := hAgrees w hLast
      rw [if_pos hLastNil]
      exact hNil

/-- A table holds the values stored last under the strings of the heap, and
nothing under other strings. -/
def Fields (history : History) (h : Heap) (r : Handle) (t : Table) : Prop :=
  ∀ s : Str, (h.Canonical s → Agrees (t.held? (.str s)) (lastStored r s.bytes history)) ∧
    (¬h.Canonical s → t.held? (.str s) = none)

/-- What the fields of a table are depends on the strings of the heap only, not on its other objects
or on the colours. -/
theorem Fields.congr (hFields : Fields history h r t) (hStrings : h'.strings = h.strings) :
    Fields history h' r t := by
  intro s
  rw [Heap.canonical_congr hStrings]
  exact hFields s

/-- A heap stands for a history. -/
structure Represents (history : History) (h : Heap) : Prop where
  interned : h.Interned
  canonical : ∀ id s, h.key? id = some s → h.Canonical s
  keys : ∀ id name, .interned id name ∈ history ↔ ∃ s, h.key? id = some s ∧ s.bytes = name
  created : ∀ r, .created r ∈ history → (h.object? r).isSome = true
  stored : ∀ r id v, .stored r id v ∈ history → (h.object? r).isSome = true
  tables : ∀ r o, h.object? r = some o → ∃ t, o = .table t ∧ t.WellFormed ∧ Fields history h r t

namespace Represents

/-- A table of a heap that stands for a history is well-formed and holds the fields of that history.
-/
theorem table (hRep : Represents history h) (hTable : h.object? r = some (.table t)) :
    t.WellFormed ∧ Fields history h r t := by
  obtain ⟨t₁, hHeld, hStands⟩ := hRep.tables r _ hTable
  cases hHeld
  exact hStands

/-- A name that was stored under is a string of the heap. -/
theorem string_of_lastStored (hRep : Represents history h) {name : Bytes}
    (hLast : lastStored r name history = some v) : ∃ s, h.Canonical s ∧ s.bytes = name := by
  obtain ⟨id, _, hName⟩ := stored_of_lastStored hLast
  obtain ⟨s, hKey, hBytes⟩ := (hRep.keys id name).mp hName
  exact ⟨s, hRep.canonical id s hKey, hBytes⟩

/-- Nothing was stored where there is no object. -/
theorem lastStored_eq_none (hRep : Represents history h) (hNew : h.object? r = none)
    (name : Bytes) : lastStored r name history = none := by
  rw [Option.eq_none_iff_forall_ne_some]
  intro v hLast
  obtain ⟨id, hStored, _⟩ := stored_of_lastStored hLast
  have hHeld := hRep.stored r id v hStored
  rw [hNew] at hHeld
  cases hHeld

/-- The tables of a heap in which one was put in its place. The other tables stand for what they
did, as long as the new history says nothing else of them. -/
theorem tables_of_put {history' : History} (hRep : Represents history h)
    (hObjects : ∀ q, h'.object? q = if q = r then some (.table t') else h.object? q)
    (hWell : t'.WellFormed) (hHere : Fields history' h' r t')
    (hOther : ∀ q t, q ≠ r → Fields history h q t → Fields history' h' q t) (q : Handle)
    (o : Object) (hObject : h'.object? q = some o) :
    ∃ t, o = .table t ∧ t.WellFormed ∧ Fields history' h' q t := by
  rw [hObjects] at hObject
  split at hObject
  next hEq =>
    cases hObject
    subst hEq
    exact ⟨t', rfl, hWell, hHere⟩
  next hNe =>
    obtain ⟨t, rfl, hWell, hFields⟩ := hRep.tables q o hObject
    exact ⟨t, rfl, hWell, hOther q t hNe hFields⟩

/-- Colours and the queue of the collector are no part of what a heap stands for. -/
theorem recolored (hRep : Represents history h) (hColored : h.Recolored h') :
    Represents history h' := by
  have hKey := Heap.key?_congr hColored.keys
  have hCanonical := Heap.canonical_congr hColored.strings
  refine ⟨hRep.interned.congr hColored.strings, ?_, ?_, ?_, ?_, ?_⟩
  · simpa only [hKey, hCanonical] using hRep.canonical
  · simpa only [hKey] using hRep.keys
  · simpa only [hColored.object] using hRep.created
  · simpa only [hColored.object] using hRep.stored
  · simpa only [hColored.object, Fields, hCanonical] using hRep.tables

/-- New strings stand for names that nothing was stored under. A table holds nothing under a string
that was not the heap's own. -/
theorem fields_grown (hRep : Represents history h) (hGrown : h.Grown h')
    (hFields : Fields history h r t) : Fields history h' r t := by
  intro s
  obtain ⟨hOld, hNone⟩ := hFields s
  refine ⟨fun hNew => ?_, fun hOther => hNone fun hs => hOther (hGrown.canonical hs)⟩
  by_cases hs : h.Canonical s
  · exact hOld hs
  · rw [hNone hs]
    intro v hLast
    obtain ⟨q, hq, hBytes⟩ := hRep.string_of_lastStored hLast
    -- A string of the same name was there before, so the new one cannot be.
    have hShort : s.isShort = true := by
      by_contra hLong
      exact hs fun h => absurd h hLong
    have hBefore := hGrown.canonical hq (by rw [Str.isShort_congr hBytes]; exact hShort)
    rw [hBytes, hNew hShort, Option.some.injEq] at hBefore
    exact absurd (hBefore ▸ hq) hs

/-- New strings change nothing that is stood for, although a name that was no string before may be
one now. -/
theorem grown (hRep : Represents history h) (hGrown : h.Grown h') : Represents history h' := by
  have hObject := Heap.object?_congr hGrown.objects
  have hKey := Heap.key?_congr hGrown.keys
  refine ⟨hGrown.interned, fun id s h => ?_, ?_, ?_, ?_, fun r o h => ?_⟩
  · rw [hKey] at h
    exact hGrown.canonical (hRep.canonical id s h)
  · simpa only [hKey] using hRep.keys
  · simpa only [hObject] using hRep.created
  · simpa only [hObject] using hRep.stored
  · rw [hObject] at h
    obtain ⟨t, rfl, hWell, hFields⟩ := hRep.tables r o h
    exact ⟨t, rfl, hWell, hRep.fields_grown hGrown hFields⟩

/-- Registering a key changes no field. What is stored under the name later counts for all numbers
that stand for it. -/
theorem registered (hRep : Represents history h) (hCanonical : h.Canonical s)
    (hNew : h.key? id = none) (hObjects : h'.objects = h.objects) (hStrings : h'.strings = h.strings)
    (hKeys : ∀ id', h'.key? id' = if id' = id then some s else h.key? id') :
    Represents (.interned id s.bytes :: history) h' := by
  have hObject := Heap.object?_congr hObjects
  refine ⟨hRep.interned.congr hStrings, fun id' q hKey => ?_, fun id' name => ?_, fun r hMem => ?_,
    fun r id' v hMem => ?_, fun r o hHeld => ?_⟩
  · rw [Heap.canonical_congr hStrings]
    rw [hKeys] at hKey
    split at hKey
    next =>
      cases hKey
      exact hCanonical
    next => exact hRep.canonical id' q hKey
  · rw [List.mem_cons, hRep.keys, Success.interned.injEq, hKeys]
    split
    next hEq =>
      subst hEq
      simp [hNew, eq_comm]
    next hOther => simp [hOther]
  · rw [hObject]
    exact hRep.created r (by simpa using hMem)
  · rw [hObject]
    exact hRep.stored r id' v (by simpa using hMem)
  · rw [hObject] at hHeld
    obtain ⟨t, rfl, hWell, hFields⟩ := hRep.tables r o hHeld
    -- The history is longer by no store, so the fields are the same by definition.
    have hFields' : Fields (.interned id s.bytes :: history) h r t := hFields
    exact ⟨t, rfl, hWell, hFields'.congr hStrings⟩

/-- A new table holds nothing, and nothing was stored in it. No store can have named it, since
stores name objects that are there. -/
theorem allocated (hRep : Represents history h) (hNew : h.object? r = none)
    (hObjects : ∀ q, h'.object? q = if q = r then some (.table {}) else h.object? q)
    (hStrings : h'.strings = h.strings) (hKeys : h'.keys = h.keys) :
    Represents (.created r :: history) h' := by
  have hKey := Heap.key?_congr hKeys
  have hHeld (q : Handle) (hq : (h.object? q).isSome = true) : (h'.object? q).isSome = true :=
    Heap.isSome_object?_of_put hq hObjects
  refine ⟨hRep.interned.congr hStrings, ?_, ?_, fun q hMem => ?_, fun q id v hMem => ?_,
    hRep.tables_of_put hObjects Table.wellFormed_new (fun s => ?_) fun q t _ hFields => ?_⟩
  · simpa only [hKey, Heap.canonical_congr hStrings] using hRep.canonical
  · simpa [hKey] using hRep.keys
  · rcases List.mem_cons.mp hMem with hHere | hBefore
    · cases hHere
      rw [hObjects, if_pos rfl]
      rfl
    · exact hHeld q (hRep.created q hBefore)
  · exact hHeld q (hRep.stored q id v (by simpa using hMem))
  · have hNone : lastStored r s.bytes (.created r :: history) = none :=
      hRep.lastStored_eq_none hNew s.bytes
    rw [Table.held?_new, hNone]
    refine ⟨fun _ v hLast => ?_, fun _ => rfl⟩
    cases hLast
  · have hFields' : Fields (.created r :: history) h q t := hFields
    exact hFields'.congr hStrings

/-- A table that is laid out in another way holds the same fields. -/
theorem relaid (hRep : Represents history h) (hTable : h.object? r = some (.table t))
    (hSame : t.SameEntries t') : Represents history (h.withObject r (.table t')) := by
  have hObjects := Heap.object?_withObject (h := h) (r := r) (by simp [hTable]) (.table t')
  refine ⟨hRep.interned, hRep.canonical, hRep.keys,
    fun q hMem => Heap.isSome_object?_of_put (hRep.created q hMem) hObjects,
    fun q id v hMem => Heap.isSome_object?_of_put (hRep.stored q id v hMem) hObjects,
    hRep.tables_of_put hObjects hSame.wellFormed (fun s => ?_) fun q t _ hFields => hFields⟩
  rw [hSame.entry]
  exact (hRep.table hTable).2 s

/-- A store is the last one under its name in its table. The name is the one that the number was
registered for, and there is exactly one such name. -/
theorem lastStored_cons (hRep : Represents history h) (hKey : h.key? id = some s) (q : Handle)
    (name : Bytes) : lastStored q name (.stored r id v :: history) =
      if r = q ∧ s.bytes = name then some v else lastStored q name history := by
  have hName : .interned id name ∈ history ↔ s.bytes = name := by
    rw [hRep.keys, hKey]
    simp
  simp only [lastStored, hName]

/-- The table that was stored in holds the value under the name, and under the other names what it
held. Names are told apart by their strings, and equal contents mean one string or two that are
equal as keys. -/
theorem fields_written (hRep : Represents history h) (hFields : Fields history h r t)
    (hKey : h.key? id = some s) (hDecodes : v.Decodes a) (hStored : t.Stored t' (.str s) a) :
    Fields (.stored r id v :: history) h r t' := by
  have hs := hRep.canonical id s hKey
  intro x
  rw [hRep.lastStored_cons hKey, hStored.entry]
  constructor
  · intro hx
    by_cases hBytes : s.bytes = x.bytes
    · have hSame : (Key.str s).same (.str x) = true := (hs.equal_iff hx).mpr hBytes
      rw [if_pos hSame, if_pos ⟨rfl, hBytes⟩]
      exact agrees_nonNil? hDecodes
    · have hOther : (Key.str s).same (.str x) ≠ true :=
        fun hSame => hBytes ((hs.equal_iff hx).mp hSame)
      rw [if_neg hOther, if_neg fun hHere => hBytes hHere.2]
      exact (hFields x).1 hx
  · intro hx
    have hOther : (Key.str s).same (.str x) ≠ true := fun hSame => hx (hs.of_equal hSame)
    rw [if_neg hOther]
    exact (hFields x).2 hx

/-- A store is the last one under its name in its table, and under no other. The other tables of the
heap are not touched, and neither are its strings and keys. -/
theorem written (hRep : Represents history h) (hTable : h.object? r = some (.table t))
    (hKey : h.key? id = some s) (hDecodes : v.Decodes a) (hStored : t.Stored t' (.str s) a) :
    Represents (.stored r id v :: history) (h.withObject r (.table t')) := by
  have hObjects := Heap.object?_withObject (h := h) (r := r) (by simp [hTable]) (.table t')
  have hHeld (q : Handle) (hq : (h.object? q).isSome = true) :
      ((h.withObject r (.table t')).object? q).isSome = true :=
    Heap.isSome_object?_of_put hq hObjects
  refine ⟨hRep.interned, hRep.canonical, fun id' name => ?_, fun q hMem => ?_,
    fun q id' w hMem => ?_, hRep.tables_of_put hObjects hStored.wellFormed
      (hRep.fields_written (hRep.table hTable).2 hKey hDecodes hStored) fun q t hNe hFields x => ?_⟩
  · have hKeys : (h.withObject r (.table t')).key? = h.key? := rfl
    rw [hKeys, ← hRep.keys]
    simp
  · exact hHeld q (hRep.created q (by simpa using hMem))
  · rcases List.mem_cons.mp hMem with hHere | hBefore
    · cases hHere
      exact hHeld r (by simp [hTable])
    · exact hHeld q (hRep.stored q id' w hBefore)
  · rw [hRep.lastStored_cons hKey, if_neg fun hHere => hNe hHere.1.symm]
    exact hFields x

end Represents

end TaggedRuntime.Abi
