import TaggedRuntime.Proofs.Json.Reading
import TaggedRuntime.Run

/-! The lines of a trace. A line is read back as the object of its event: the fields of the event on
top of the two that every line has. For the two events that the runtime reports the object is
spelled out, so what is written can be compared with what happened. -/

namespace TaggedRuntime.Trace

/-- The fields that say which event a line is about. -/
def head (event : String) : List (String × Json) :=
  [("schema_version", .str schemaVersion), ("event", .str event)]

/-- The fields that go on top of them. Nothing but an object has any. -/
def added : Json → List (String × Json)
  | .object fields => fields
  | _ => []

/-- The fields of a line, in order. -/
def entries (event : String) (fields : Json) : List (String × Json) :=
  Json.extend (Json.extend [] (head event)) (added fields)

variable {fields : Json}

/-- The object of a line has the fields of the event on top of those of every line. -/
theorem object_eq (event : String) (fields : Json) :
    object event fields = .object (entries event fields) := by
  cases fields <;> rfl

theorem field?_eq (key : String) (fields : Json) :
    fields.field? key = (added fields).lookup key := by
  cases fields <;> rfl

theorem everywhere_added {p : Json → Prop} (hFields : fields.Everywhere p) :
    ∀ field ∈ added fields, field.2.Everywhere p := by
  cases fields with
  | object => exact hFields.of_field
  | _ => exact nofun

theorem inOrder_added (hOrdered : fields.Everywhere Json.Ordered) :
    Json.InOrder (added fields) := by
  obtain ⟨hHere, -⟩ := hOrdered
  cases fields with
  | object => exact hHere
  | _ => exact .nil

theorem inOrder_entries (event : String) (fields : Json) : Json.InOrder (entries event fields) :=
  (Json.InOrder.extend .nil (head event)).extend (added fields)

/-- What holds of texts and everywhere in the fields holds everywhere in the line. -/
theorem everywhere_object {p : Json → Prop} (event : String) (hText : ∀ s, p (.str s))
    (hObject : p (.object (entries event fields))) (hFields : fields.Everywhere p) :
    (Json.object (entries event fields)).Everywhere p := by
  refine .object hObject fun field hField => ?_
  rcases Json.mem_extend hField with hHead | hAdded
  · obtain hNone | hHead := Json.mem_extend hHead
    · exact absurd hNone List.not_mem_nil
    · rcases List.mem_pair.mp hHead with rfl | rfl <;> exact .intro (hText _) nofun
  · exact everywhere_added hFields field hAdded

/-- A key of a line is looked up in the event first, so an event may override the version and its
own name. -/
theorem lookup_entries (event : String) (hOrdered : fields.Everywhere Json.Ordered) (key : String) :
    (entries event fields).lookup key = (fields.field? key).or ((head event).lookup key) := by
  have hHead : ((head event).map Prod.fst).Nodup :=
    show ["schema_version", "event"].Nodup by decide
  rw [entries, Json.lookup_extend (inOrder_added hOrdered).nodup, Json.lookup_extend hHead,
    List.lookup_nil, Option.or_none, field?_eq]

theorem read?_line (event : String) (hIntegral : fields.Everywhere Json.Integral)
    (hOrdered : fields.Everywhere Json.Ordered) :
    Json.read? (line event fields) = some (object event fields) := by
  rw [line, object_eq]
  exact Json.read?_render (everywhere_object event (fun _ => trivial) trivial hIntegral)
    (everywhere_object event (fun _ => trivial) (inOrder_entries event fields) hOrdered)

/-- An event with any text and any fields without fractions is one line without control characters.
The line is read back as one object, whose fields are those of the event and, unless these override
them, the version of the layout and the text of the event; fields are printed in ascending order at
every level. So different objects have different lines. -/
theorem line_decodable (event : String) (fields : Json)
    (hIntegral : fields.Everywhere Json.Integral) (hOrdered : fields.Everywhere Json.Ordered) :
    (∀ c ∈ line event fields, 0x20 ≤ c.toNat) ∧
    (∃ entries, object event fields = .object entries ∧
      Json.read? (line event fields) = some (.object entries) ∧
      (∀ key, entries.lookup key = (fields.field? key).or
        ([("schema_version", .str schemaVersion), ("event", .str event)].lookup key)) ∧
      line event fields = (Json.object entries).render ∧
      (Json.object entries).Everywhere Json.Ordered) ∧
    ∀ event' fields', fields'.Everywhere Json.Integral → fields'.Everywhere Json.Ordered →
      object event' fields' ≠ object event fields → line event' fields' ≠ line event fields := by
  have hEntries := object_eq event fields
  have hRead := read?_line event hIntegral hOrdered
  refine ⟨?_, ⟨entries event fields, hEntries, hEntries ▸ hRead, lookup_entries event hOrdered,
    congrArg Json.render hEntries, ?_⟩, ?_⟩
  · rw [line, hEntries]
    exact Json.printed_render (everywhere_object event (fun _ => trivial) trivial hIntegral)
  · exact everywhere_object event (fun _ => trivial) (inOrder_entries event fields) hOrdered
  · intro event' fields' hIntegral' hOrdered' hDiffer hSame
    have hRead' := read?_line event' hIntegral' hOrdered'
    rw [hSame, hRead] at hRead'
    exact hDiffer (Option.some.inj hRead').symm

/-- A text with a line break overrides the text of the event, and a key is a quote. -/
theorem line_decodable_overriding :
    let fields : Json :=
      .object [("event", .str "a\n"), ("from", .object [("\"", .int (2 ^ 64 - 1))])]
    Json.read? (line "error" fields) = some (.object [("event", .str "a\n"),
      ("from", .object [("\"", .int (2 ^ 64 - 1))]), ("schema_version", .str schemaVersion)]) ∧
    line "error" .null ≠ line "error" fields := by
  intro fields
  have hIntegral : fields.Everywhere Json.Integral := by
    refine .object trivial fun field hField => ?_
    rcases List.mem_pair.mp hField with rfl | rfl
    · exact .intro trivial nofun
    · refine .object trivial fun field hField => ?_
      obtain rfl := List.mem_singleton.mp hField
      exact .intro (by unfold Json.Integral; decide) nofun
  have hOrdered : fields.Everywhere Json.Ordered := by
    have hKeys : Text.toBytes "event" < Text.toBytes "from" :=
      (Text.toBytes_lt_iff _ _).mpr (by decide)
    refine .object (List.pairwise_pair.mpr hKeys) fun field hField => ?_
    rcases List.mem_pair.mp hField with rfl | rfl
    · exact .intro trivial nofun
    · refine .object (List.pairwise_singleton _ _) fun field hField => ?_
      obtain rfl := List.mem_singleton.mp hField
      exact .intro trivial nofun
  obtain ⟨-, ⟨entries, hObject, hRead, -⟩, hDiffer⟩ :=
    line_decodable "error" fields hIntegral hOrdered
  refine ⟨hRead.trans (congrArg some ?_), ?_⟩
  · rw [← hObject]
    rfl
  · refine hDiffer "error" .null (.intro trivial nofun) (.intro trivial nofun) fun hSame => ?_
    have hFrom := congrArg (Json.field? "from") hSame
    exact absurd hFrom nofun

end TaggedRuntime.Trace

namespace TaggedRuntime.Event

/-- The sizes of an array part are words. -/
def Sized : Event → Prop
  | raised _ => True
  | arrayGrown before after _ => before < 2 ^ 64 ∧ after < 2 ^ 64

/-- What holds of texts, of a missing text, of words and of objects in order holds everywhere in the
fields of an event. Both events are covered by it, so a property of lines is checked on their parts
only once. -/
theorem everywhere_fields {p : Json → Prop} {e : Event} (hSized : e.Sized) (hNull : p .null)
    (hText : ∀ s, p (.str s)) (hWord : ∀ n : ℕ, n < 2 ^ 64 → p (.int n))
    (hObject : ∀ fields, Json.InOrder fields → p (.object fields)) : e.fields.Everywhere p := by
  have hSmall (w : UInt32) : w.toNat < 2 ^ 64 := w.toNat_lt.trans (by decide)
  cases e with
  | raised e =>
      refine .ofFields hObject ?_
      have hFile : (Json.optional .str e.file).Everywhere p := by
        cases e.file with
        | none => exact .intro hNull nofun
        | some file => exact .intro (hText file) nofun
      simp only [List.forall_mem_cons]
      exact ⟨.intro (hWord _ (hSmall _)) nofun, .intro (hText _) nofun, hFile,
        .intro (hWord _ (hSmall _)) nofun, nofun⟩
  | arrayGrown before after loc =>
      refine .ofFields hObject ?_
      simp only [List.forall_mem_cons]
      exact ⟨.intro (hWord _ hSized.1) nofun, .intro (hWord _ hSized.2) nofun,
        .intro (hText _) nofun, .intro (hWord _ (hSmall _)) nofun, nofun⟩

/-- What the line of an event says: which event it is, where it happened, and either the error that
was made or the two sizes of the array part. Keys are in ascending order, and an error without a
file has none in its line either. -/
def content : Event → Json
  | raised e => .object [
      ("code", .int e.code.toNat),
      ("event", .str "error"),
      ("file", match e.file with
        | some file => .str file
        | none => .null),
      ("kind", .str e.kind.name),
      ("line", .int e.line.toNat),
      ("schema_version", .str Trace.schemaVersion)]
  | arrayGrown before after loc => .object [
      ("event", .str "array_grow"),
      ("file", .str loc.file),
      ("from", .int before),
      ("line", .int loc.line.toNat),
      ("schema_version", .str Trace.schemaVersion),
      ("to", .int after)]

/-- The fields of an event and those of every line, each put in its place. The file of an error may
be missing, which is the one case to tell apart. -/
theorem object_eq_content (e : Event) : Trace.object e.name e.fields = e.content := by
  cases e with
  | raised e =>
      simp (disch := decide) only [content, name, fields, Trace.object, Json.ofFields, Json.extend,
        List.foldl_cons, List.foldl_nil, Json.insertField_nil, Json.insertField_before,
        Json.insertField_behind]
      cases e.file <;> rfl
  | arrayGrown before after loc =>
      simp (disch := decide) only [content, name, fields, Trace.object, Json.ofFields, Json.extend,
        List.foldl_cons, List.foldl_nil, Json.insertField_nil, Json.insertField_before,
        Json.insertField_behind]

/-- Every line that a trace writes is read back as what its event says. -/
theorem read?_line {e : Event} (hSized : e.Sized) : Json.read? e.line = some e.content := by
  rw [← object_eq_content]
  refine Trace.read?_line e.name ?_ ?_
  · exact everywhere_fields hSized trivial (fun _ => trivial) (fun n hn => ⟨by omega, by omega⟩)
      fun _ _ => trivial
  · exact everywhere_fields hSized trivial (fun _ => trivial) (fun _ _ => trivial)
      fun _ hOrder => hOrder

end TaggedRuntime.Event

namespace TaggedRuntime

variable {σ : Type}

/-- What is left behind by two runs from one journal, a quiet one and a traced one, when the trace
only observes. Both leave the same host and the same output. The quiet run writes no line, and the
traced one writes a line for each of the events, in order, that says what the event is. -/
structure Journal.Observed (j quiet traced : Journal σ) (events : List Event) : Prop where
  host : traced.host = quiet.host
  output : traced.output = quiet.output
  silent : quiet.lines = j.lines
  told : ∃ lines, traced.lines = j.lines ++ lines ∧
    lines.map Json.read? = events.map fun e => some e.content

/-- A traced run that adds the events to what a quiet run leaves is observed only. -/
theorem Journal.Observed.of_events {j quiet : Journal σ} {events : List Event}
    (hSilent : quiet.events = j.events) (hSized : ∀ e ∈ events, e.Sized) :
    j.Observed quiet { quiet with events := j.events ++ events } events where
  host := rfl
  output := rfl
  silent := congrArg (List.map Event.line) hSilent
  told := by
    refine ⟨events.map Event.line, List.map_append, ?_⟩
    rw [List.map_map]
    exact List.map_congr_left fun e he => Event.read?_line (hSized e he)

end TaggedRuntime
