import TaggedRuntime.Proofs.Abi.Answers
import TaggedRuntime.Proofs.Abi.FieldCalls
import TaggedRuntime.Proofs.Heap.Growth
import TaggedRuntime.Proofs.Heap.Tables
import TaggedRuntime.Proofs.Table.Operation

/-! What is left of a call that was refused to write a field. The key, the value,
the barrier and the table are seen to in this order, and nothing is stored before
all of them were found good. -/

namespace TaggedRuntime

namespace FlatValue

/-- The object that a flat value names. -/
def object? (v : FlatValue) : Option Handle :=
  if v.tag = tagTable ∨ v.tag = tagUserdata then some v.handle else none

/-- A value of a known tag is made, and only a string costs the heap anything. The objects that it
names are not looked for, so it may name one that is not there. -/
theorem toValue_of_known {v : FlatValue} (hTag : v.tag ≤ tagUserdata) (h : Heap) :
    ∃ a h', v.toValue.run h = .ok a h' ∧ a.object? = v.object? ∧
      (h' = h ∨ v.tag = tagString ∧ ∃ s, (Heap.newStr v.text).run h = .ok s h') := by
  obtain ⟨tag, length, bits, data⟩ := v
  rcases tag_cases tag with rfl | rfl | rfl | rfl | rfl | rfl | rfl | rfl | hUnknown
  · exact ⟨.nil, h, rfl, rfl, .inl rfl⟩
  · exact ⟨.absent, h, rfl, rfl, .inl rfl⟩
  · exact ⟨.bool (bits ≠ 0), h, rfl, rfl, .inl rfl⟩
  · exact ⟨.int bits.toInt64, h, rfl, rfl, .inl rfl⟩
  · exact ⟨.float ⟨bits⟩, h, rfl, rfl, .inl rfl⟩
  · obtain ⟨s, h', hRun, _⟩ :=
      Heap.newStr_objects (FlatValue.text ⟨tagString, length, bits, data⟩) h
    refine ⟨.str s, h', ?_, rfl, .inr ⟨rfl, s, hRun⟩⟩
    change (Heap.newStr _ >>= fun s => pure (Value.str s)).run h = _
    rw [EStateM.run_bind, hRun]
    rfl
  · exact ⟨.table ⟨bits.toUInt32⟩, h, rfl, rfl, .inl rfl⟩
  · exact ⟨.userdata ⟨bits.toUInt32⟩, h, rfl, rfl, .inl rfl⟩
  · exact absurd hUnknown (UInt32.not_lt.mpr hTag)

end FlatValue

namespace Heap

variable {h h' : Heap} {owner child : Handle}

/-- A barrier that meets objects only turns a black owner of a white child back. It is a fault where
the owner is missing, and where the child is missing under a black owner; a missing child under any
other owner goes unnoticed. -/
theorem writeBarrier_cases (owner child : Handle) (h : Heap) :
    ((h.object? owner = none ∨ h.color? owner = some .black ∧ h.object? child = none) ∧
      ∃ f, (writeBarrier owner child : HostM Heap Unit).run h = .error (.fault f) h) ∨
    (¬(h.color? owner = some .black ∧ h.object? child = none) ∧
      ∃ h', (writeBarrier owner child : HostM Heap Unit).run h = .ok () h' ∧ (h' = h ∨
        h.color? owner = some .black ∧ h.color? child = some .white ∧ h' = h.regrayed owner)) := by
  rw [writeBarrier_run]
  cases hOwner : h.color? owner with
  | none => exact .inl ⟨.inl (color?_eq_none.mp hOwner), _, rfl⟩
  | some c =>
      cases c with
      | white => exact .inr ⟨nofun, h, rfl, .inl rfl⟩
      | gray => exact .inr ⟨nofun, h, rfl, .inl rfl⟩
      | black =>
          cases hChild : h.color? child with
          | none => exact .inl ⟨.inr ⟨rfl, color?_eq_none.mp hChild⟩, _, rfl⟩
          | some d =>
              have hHeld : ¬h.object? child = none := fun hNone => by
                rw [color?_eq_none.mpr hNone] at hChild
                cases hChild
              refine .inr ⟨fun hDangling => hHeld hDangling.2, ?_⟩
              cases d with
              | white => exact ⟨_, rfl, .inr ⟨rfl, rfl, rfl⟩⟩
              | gray => exact ⟨h, rfl, .inl rfl⟩
              | black => exact ⟨h, rfl, .inl rfl⟩

/-- A heap behind a write that was refused. All objects, their number and the keys are
the same. At most, a string was made of the value, or a black owner of a white child
was turned gray and queued. -/
structure Prepared (owner : Handle) (value : FlatValue) (h h' : Heap) : Prop where
  object : ∀ r, h'.object? r = h.object? r
  size : h'.objects.size = h.objects.size
  keys : h'.keys = h.keys
  change : h' = h ∨
    (value.tag = FlatValue.tagString ∧ ∃ s, (newStr value.text).run h = .ok s h') ∨
    (h.color? owner = some .black ∧ h' = h.regrayed owner ∧
      ∃ child, value.object? = some child ∧ h.color? child = some .white)

namespace Prepared

variable {value : FlatValue}

theorem refl (h : Heap) : Prepared owner value h h := ⟨fun _ => rfl, rfl, rfl, .inl rfl⟩

/-- A string that was made of the value is all that is left, if the refusal came behind it. -/
theorem of_made (hMade : h' = h ∨
    value.tag = FlatValue.tagString ∧ ∃ s, (newStr value.text).run h = .ok s h') :
    Prepared owner value h h' := by
  rcases hMade with rfl | ⟨hTag, s, hRun⟩
  · exact .refl h'
  · obtain ⟨hObjects, hKeys⟩ := newStr_keeps hRun
    exact ⟨object?_congr hObjects, congrArg Array.size hObjects, hKeys, .inr (.inl ⟨hTag, s, hRun⟩)⟩

/-- What the barrier did is all that is left, if the refusal came behind it. The value names an
object then, so no string was made. -/
theorem of_barrier (hChild : value.object? = some child) (hBarrier : h' = h ∨
    h.color? owner = some .black ∧ h.color? child = some .white ∧ h' = h.regrayed owner) :
    Prepared owner value h h' := by
  rcases hBarrier with rfl | ⟨hBlack, hWhite, rfl⟩
  · exact .refl h'
  · have hColored := h.recolored_regrayed owner
    exact ⟨hColored.object, Array.size_modify, hColored.keys,
      .inr (.inr ⟨hBlack, rfl, child, hChild, hWhite⟩)⟩

end Prepared

end Heap

namespace Abi

open Table

section Operations

variable {config : Config} {j : Journal Heap} {owner : Handle} {key : UInt32} {value : FlatValue}
  {s : Str} {a : Value}

/-- Nothing is stored in an owner that is no table. The heap stays as it is, and the fault says what
was found. -/
theorem storeCell_noTable (hOwner : ∀ t, j.host.object? owner ≠ some (.table t)) (s : Str)
    (a : Value) (cache : FieldCache) (config : Config) :
    ∃ f, storeCell owner s a cache config j = .error (.fault f) j := by
  rcases Heap.table_cases owner j.host with ⟨t, hTable⟩ | ⟨f, hFault⟩
  · exact absurd hTable (hOwner t)
  · refine ⟨f, ?_⟩
    unfold storeCell
    rw [Run.bind_run, Run.host_run, hFault]

/-- Only want of memory keeps a cell of a table from being stored. No fault is left once the owner
is known to be a table. -/
theorem storeCell_stores {t : Table} (hTable : j.host.object? owner = some (.table t))
    (hWell : t.WellFormed) (s : Str) (a : Value) (cache : FieldCache) :
    (storeCell owner s a cache).Ensures config j (fun _ _ => True) fun _ => False := by
  obtain ⟨after, ⟨written, _, hRun⟩ | ⟨_, hRun⟩⟩ := storeCell_cases hWell hTable s a config cache
  · unfold Run.Ensures
    rw [hRun]
    trivial
  · have hStore : (Run.host {} (Heap.onTable owner (setStr s a)) >>= fun _ => pure after :
        Run Heap FieldCache).Ensures config j (fun _ _ => True) fun _ => False := by
      refine Run.Ensures.bind (Run.Ensures.host {} ?_)
      unfold HostM.Ensures
      rw [Heap.onTable_run _ hTable]
      cases (setStr s a).run t with
      | ok _ t' => exact fun _ _ => trivial
      | error e t' => trivial
    unfold Run.Ensures at hStore ⊢
    rwa [hRun]

/-- What writing a field does before the table is looked at: the value is made, and the
barrier is run for a child. -/
def prepare (owner : Handle) (value : FlatValue) : HostM Heap Value := do
  let a ← value.toValue
  if let some child := a.object? then writeBarrier owner child
  return a

/-- A write in its order: the key is looked up, the value is made and shown to the barrier, and only
then is the table asked for. This order decides what is left of a refused write. -/
theorem writeField_eq (owner : Handle) (key : UInt32) (value : FlatValue) (cache : FieldCache) :
    writeField owner key value cache = registeredKey key >>= fun s =>
      Run.host {} (prepare owner value) >>= fun a => storeCell owner s a cache := by
  change (registeredKey key >>= fun s => Run.host {} value.toValue >>= fun a => do
    if let some child := a.object? then Run.host {} (writeBarrier owner child)
    storeCell owner s a cache) = _
  congr 1
  funext s
  rw [prepare, Run.host_bind, bind_assoc]
  congr 1
  funext a
  cases a.object? with
  | none => rfl
  | some child =>
      dsimp only
      rw [Run.host_bind, bind_assoc]
      rfl

/-- A value that names a child that a black owner may not be given. -/
def Dangling (h : Heap) (owner : Handle) (value : FlatValue) : Prop :=
  h.color? owner = some .black ∧ ∃ child, value.object? = some child ∧ h.object? child = none

theorem prepare_plain {h h' : Heap} (hRun : value.toValue.run h = .ok a h')
    (hPlain : a.object? = none) (owner : Handle) : (prepare owner value).run h = .ok a h' := by
  rw [prepare, EStateM.run_bind, hRun]
  dsimp only
  rw [hPlain]
  rfl

/-- A value that names an object meets the barrier. The value is given if the barrier lets it pass,
and the heap behind it is the barrier's. -/
theorem prepare_object {h h' : Heap} {child : Handle} (hRun : value.toValue.run h = .ok a h')
    (hChild : a.object? = some child) (owner : Handle) : (prepare owner value).run h =
      match (writeBarrier owner child : HostM Heap Unit).run h' with
      | .ok _ h₁ => .ok a h₁
      | .error e h₁ => .error e h₁ := by
  rw [prepare, EStateM.run_bind, hRun]
  dsimp only
  rw [hChild]
  dsimp only
  rw [EStateM.run_bind]
  cases (writeBarrier owner child : HostM Heap Unit).run h' <;> rfl

/-- The value is made and the barrier is run, or the heap is left as it is. The second happens for
an unknown tag, a missing owner, or a child that dangles. -/
theorem prepare_cases (owner : Handle) (value : FlatValue) (h : Heap) :
    ((FlatValue.tagUserdata < value.tag ∨ h.object? owner = none ∨ Dangling h owner value) ∧
      ∃ f, (prepare owner value).run h = .error (.fault f) h) ∨
    (value.tag ≤ FlatValue.tagUserdata ∧ ¬Dangling h owner value ∧
      ∃ a h', (prepare owner value).run h = .ok a h' ∧ h.Prepared owner value h') := by
  by_cases hTag : FlatValue.tagUserdata < value.tag
  · refine .inl ⟨.inl hTag, .unknownTag value.tag, ?_⟩
    rw [prepare, EStateM.run_bind, FlatValue.toValue_of_unknown hTag]
  have hKnown := UInt32.not_lt.mp hTag
  obtain ⟨a, h', hRun, hObject, hMade⟩ := FlatValue.toValue_of_known hKnown h
  cases hChild : a.object? with
  | none =>
      refine .inr ⟨hKnown, fun ⟨_, child, hSome, _⟩ => ?_, a, h', prepare_plain hRun hChild owner,
        .of_made hMade⟩
      rw [← hObject, hChild] at hSome
      cases hSome
  | some child =>
      have hSome : value.object? = some child := hObject ▸ hChild
      have hDangling : Dangling h owner value ↔
          h.color? owner = some .black ∧ h.object? child = none := by
        simp [Dangling, hSome]
      have hSame : h' = h := hMade.resolve_right fun hString => by
        rw [FlatValue.object?, hString.1] at hSome
        cases hSome
      subst hSame
      rw [prepare_object hRun hChild]
      rcases Heap.writeBarrier_cases owner child h' with
        ⟨hFault, f, hBarrier⟩ | ⟨hHeld, h₁, hBarrier, hLeft⟩
      · refine .inl ⟨.inr (hFault.imp_right hDangling.mpr), f, ?_⟩
        rw [hBarrier]
      · refine .inr ⟨hKnown, fun h => hHeld (hDangling.mp h), a, h₁, ?_, .of_barrier hSome hLeft⟩
        rw [hBarrier]

/-- What a write of a field is refused for. A child that is no object is a fault only
under a black owner, for only there is it looked at. -/
inductive WriteFault (h : Heap) (owner : Handle) (key : UInt32) (value : FlatValue) : Prop where
  | unknownKey (hKey : h.key? key = none)
  | unknownTag (hTag : FlatValue.tagUserdata < value.tag)
  | noTable (hOwner : ∀ t, h.object? owner ≠ some (.table t))
  | dangling (hDangling : Dangling h owner value)

/-- A write meets a fault and stores nothing, or only want of memory keeps it from being carried
out. The faults are those of the preparation, and an owner that is no table, which is found out only
behind it. -/
theorem writeField_cases (hTables : j.host.Tables Reachable) (owner : Handle) (key : UInt32)
    (value : FlatValue) (cache : FieldCache) (config : Config) :
    (WriteFault j.host owner key value ∧ ∃ f j',
      writeField owner key value cache config j = .error (.fault f) j' ∧
        j.host.Prepared owner value j'.host) ∨
    (¬WriteFault j.host owner key value ∧
      (writeField owner key value cache).Ensures config j (fun _ _ => True) fun _ => False) := by
  rw [writeField_eq]
  unfold Run.Ensures
  rw [Run.bind_run, registeredKey_run]
  cases hKey : j.host.key? key with
  | none => exact .inl ⟨.unknownKey hKey, _, j, rfl, .refl _⟩
  | some s =>
      dsimp only
      rw [Run.bind_run, Run.host_run]
      rcases prepare_cases owner value j.host with
        ⟨hFault, f, hRun⟩ | ⟨hTag, hHeld, a, h', hRun, hPrepared⟩
      · rw [hRun]
        refine .inl ⟨?_, f, _, rfl, .refl _⟩
        rcases hFault with hTag | hNone | hDangling
        · exact .unknownTag hTag
        · exact .noTable fun t hTable => by simp [hNone] at hTable
        · exact .dangling hDangling
      · rw [hRun]
        dsimp only
        by_cases hOwner : ∃ t, j.host.object? owner = some (.table t)
        · obtain ⟨t, hTable⟩ := hOwner
          have hWell := (hTables owner t hTable).wellFormed
          have hTable' := (hPrepared.object owner).trans hTable
          refine .inr ⟨?_, storeCell_stores (j := { j with host := h' }) hTable' hWell s a cache⟩
          rintro (hNone | hUnknown | hOther | hDangling)
          · simp [hKey] at hNone
          · exact absurd hTag (UInt32.not_le.mpr hUnknown)
          · exact hOther t hTable
          · exact hHeld hDangling
        · have hNone (t : Table) : j.host.object? owner ≠ some (.table t) :=
            fun hTable => hOwner ⟨t, hTable⟩
          have hNone' (t : Table) : h'.object? owner ≠ some (.table t) :=
            fun hTable => hNone t ((hPrepared.object owner).symm.trans hTable)
          obtain ⟨f, hFault⟩ := storeCell_noTable (j := { j with host := h' }) hNone' s a cache
            config
          exact .inl ⟨.noTable hNone, f, _, hFault, hPrepared⟩

/-- A field is not read under an unknown key or of something that is no table. The heap stays as it
is, and so does the cache. -/
theorem readField_fault (hFault : j.host.key? key = none ∨
      ∀ t, j.host.object? owner ≠ some (.table t)) (cache : FieldCache) (config : Config) :
    ∃ f, readField owner key cache config j = .error (.fault f) j := by
  unfold readField
  rw [Run.bind_run, registeredKey_run]
  cases hKey : j.host.key? key with
  | none => exact ⟨_, rfl⟩
  | some s =>
      rcases Heap.table_cases owner j.host with ⟨t, hTable⟩ | ⟨f, hRun⟩
      · rw [hKey] at hFault
        exact absurd hTable (hFault.resolve_left nofun t)
      · dsimp only
        rw [Run.bind_run, Run.host_run, hRun]
        exact ⟨f, rfl⟩

end Operations

section Calls

variable {α : Type} {config : Config} {heap : HeapRef} {j : Journal World} {h : Heap}

/-- What a call to write a field is refused for. -/
inductive SetFault (w : World) (heap : HeapRef) (owner : Handle) (key : UInt32)
    (value : FlatValue) (cache : Option FieldCache) : Prop where
  | nullHeap (hHeap : w.heap? heap = none)
  | nullCache (hCache : cache = none)
  | write {h : Heap} (hHeap : w.heap? heap = some h) (hWrite : WriteFault h owner key value)

/-- A process in which a write to one of its heaps was refused. -/
structure Unwritten (heap : HeapRef) (owner : Handle) (value : FlatValue) (w w' : World) :
    Prop where
  own : Option.Rel (Heap.Prepared owner value) (w.heap? heap) (w'.heap? heap)
  other : ∀ other, other ≠ heap → w'.heap? other = w.heap? other

/-- A call that changed no heap wrote nothing. -/
theorem unwritten_of_same {w w' : World} {owner : Handle} {value : FlatValue}
    (hSame : ∀ ref, w'.heap? ref = w.heap? ref) : Unwritten heap owner value w w' where
  own := by
    rw [hSame]
    cases w.heap? heap with
    | none => exact .none
    | some h => exact .some (.refl h)
  other other _ := hSame other

/-- A refusal of the operation is the refusal of the call, and the cache is handed back as it came.
-/
theorem setField_refused {r : Refusal} {owner : Handle} {key : UInt32} {value : FlatValue}
    {cache : FieldCache} {j' : Journal World}
    (hRun : settle (onHeap heap (writeField owner key value cache)) config j =
      .ok (.error r) j') :
    setField heap owner key value (some cache) config j = .ok (.error r, some cache) j' :=
  bind_of_answered hRun _

theorem getField_refused {r : Refusal} {table : Handle} {key : UInt32} {cache : FieldCache}
    {j' : Journal World}
    (hRun : settle (onHeap heap (readField table key cache)) config j = .ok (.error r) j') :
    getField heap table key (some cache) config j = .ok (.error r, some cache) j' :=
  bind_of_answered hRun _

/-- A call to write a field is refused exactly for one of the faults, with an internal error.
Without a fault it answers, unless the process ends for want of memory. -/
theorem setField_cases
    (hTables : ∀ h, j.host.heap? heap = some h → h.Tables Reachable) (owner : Handle) (key : UInt32)
    (value : FlatValue) (cache : Option FieldCache) (config : Config) :
    (SetFault j.host heap owner key value cache ∧ ∃ j',
      setField heap owner key value cache config j = .ok (.error .internal, cache) j' ∧
        Unwritten heap owner value j.host j'.host) ∨
    (¬SetFault j.host heap owner key value cache ∧
      Ensures (setField heap owner key value cache) config j fun answer _ =>
        answer.1 = .ok ()) := by
  cases cache with
  | none => exact .inl ⟨.nullCache rfl, _, rfl, unwritten_of_same fun _ => rfl⟩
  | some cache =>
      cases hHeap : j.host.heap? heap with
      | none =>
          obtain ⟨j', hRun, hSame⟩ := settle_null hHeap
            (writeField owner key value cache) config
          exact .inl ⟨.nullHeap hHeap, j', setField_refused hRun, unwritten_of_same hSame⟩
      | some h =>
          by_cases hFault : WriteFault h owner key value
          · obtain ⟨_, f, after, hWrite, hPrepared⟩ :=
              (writeField_cases (j := { host := h, events := j.events, output := j.output })
                (hTables h hHeap) owner key value cache config).resolve_right
                fun hFree => hFree.1 hFault
            obtain ⟨j', hRun, hAfter, hOther⟩ := settle_fault hHeap hWrite
            refine .inl ⟨.write hHeap hFault, j', setField_refused hRun, ?_, hOther⟩
            rw [hHeap, hAfter]
            exact .some hPrepared
          · refine .inr ⟨?_, Ensures.bind (Ensures.bind ?_)⟩
            · rintro (hNull | hNull | ⟨hHeap', hWrite⟩)
              · simp [hHeap] at hNull
              · cases hNull
              · rw [hHeap] at hHeap'
                cases hHeap'
                exact hFault hWrite
            · have hStores (journal : Journal Heap) (hj : journal.host = h) :
                  (writeField owner key value cache).Ensures config journal (fun _ _ => True)
                    fun _ => False := by
                subst hj
                exact ((writeField_cases (hTables _ hHeap) owner key value cache
                  config).resolve_left fun hRefused => hFault hRefused.1).2
              exact Ensures.settle hHeap hStores (fun _ _ _ _ _ => rfl) fun _ _ _ _ => False.elim

/-- A call to write a field that answers with a refusal met a fault of its caller and stored
nothing. Each such fault is refused, and without one only want of memory ends the call otherwise
than by storing. A look-up that meets a fault leaves everything as it is. -/
theorem refused_write_stores_nothing
    (hTables : ∀ h, j.host.heap? heap = some h → h.Tables Reachable) (owner : Handle) (key : UInt32)
    (value : FlatValue) (cache : Option FieldCache) (config : Config) :
    (∀ r cache' j', setField heap owner key value cache config j = .ok (.error r, cache') j' →
      SetFault j.host heap owner key value cache ∧ r = .internal ∧ cache' = cache ∧
        Unwritten heap owner value j.host j'.host) ∧
    (SetFault j.host heap owner key value cache →
      ∃ j', setField heap owner key value cache config j = .ok (.error .internal, cache) j') ∧
    (∀ e j', setField heap owner key value cache config j = .error e j' → e.isFatal = true) ∧
    ∀ h, j.host.heap? heap = some h →
      (h.key? key = none ∨ ∀ t, h.object? owner ≠ some (.table t)) →
      ∃ j', getField heap owner key cache config j = .ok (.error .internal, cache) j' ∧
        ∀ ref, j'.host.heap? ref = j.host.heap? ref := by
  refine ⟨fun r cache' j' hRun => ?_, fun hFault => ?_, fun e j' hRun => ?_,
    fun h hHeap hFault => ?_⟩
  · rcases setField_cases hTables owner key value cache config with
      ⟨hFault, j₁, hRefused, hUnwritten⟩ | ⟨_, hStores⟩
    · rw [hRun] at hRefused
      cases hRefused
      exact ⟨hFault, rfl, rfl, hUnwritten⟩
    · cases hStores.of_answered hRun
  · rcases setField_cases hTables owner key value cache config with
      ⟨_, j₁, hRefused, _⟩ | ⟨hFree, _⟩
    · exact ⟨j₁, hRefused⟩
    · exact absurd hFault hFree
  · rcases setField_cases hTables owner key value cache config with
      ⟨_, j₁, hRefused, _⟩ | ⟨_, hStores⟩
    · rw [hRun] at hRefused
      cases hRefused
    · exact hStores.of_ended hRun
  · cases cache with
    | none => exact ⟨_, rfl, fun _ => rfl⟩
    | some cache =>
        obtain ⟨f, hRead⟩ := readField_fault
          (j := { host := h, events := j.events, output := j.output }) hFault cache config
        obtain ⟨j', hRun, hAfter, hOther⟩ := settle_fault hHeap hRead
        refine ⟨j', getField_refused hRun, fun ref => ?_⟩
        by_cases hRef : ref = heap
        · rw [hRef, hAfter, hHeap]
        · exact hOther ref hRef

/-- A heap with a black userdata, a white table and one key. -/
private def recorded : Heap :=
  { objects := #[⟨.black, .userdata {}⟩, ⟨.white, .table {}⟩], keys := #[⟨0, 0, [102]⟩],
    serial := 1 }

private theorem recorded_tables : recorded.Tables Reachable := by
  intro r t hTable
  obtain ⟨e, hMem, hObject⟩ := Heap.mem_of_object? hTable
  simp only [recorded, List.mem_toArray, List.mem_cons, List.not_mem_nil, or_false] at hMem
  rcases hMem with rfl | rfl
  · cases hObject
  · cases hObject
    exact .new none

/-- A userdata is given no field, though the barrier was run before that was found out. -/
theorem refused_write_stores_nothing_userdata : ∃ j' h',
    setField (some 0) ⟨0⟩ 0 { tag := FlatValue.tagTable, bits := 1 } (some .unset) {}
      { host := { heaps := #[recorded] } } = .ok (.error .internal, some .unset) j' ∧
    j'.host.heap? (some 0) = some h' ∧ (∀ r, h'.object? r = recorded.object? r) ∧
      h'.keys = recorded.keys ∧ h'.grayAgain = [⟨0⟩] := by
  have hTables (h : Heap)
      (hHeap : (World.heap? { heaps := #[recorded] } (some 0)) = some h) : h.Tables Reachable := by
    cases hHeap
    exact recorded_tables
  obtain ⟨j', hRun, hGray⟩ : ∃ j',
      setField (some 0) ⟨0⟩ 0 { tag := FlatValue.tagTable, bits := 1 } (some .unset) {}
        { host := { heaps := #[recorded] } } = .ok (.error .internal, some .unset) j' ∧
      (j'.host.heap? (some 0)).map (·.grayAgain) = some [⟨0⟩] := ⟨_, rfl, rfl⟩
  obtain ⟨_, _, _, hUnwritten⟩ := (refused_write_stores_nothing hTables ⟨0⟩ 0
    { tag := FlatValue.tagTable, bits := 1 } (some .unset) {}).1 _ _ _ hRun
  cases hHeap' : j'.host.heap? (some 0) with
  | none =>
      rw [hHeap'] at hGray
      cases hGray
  | some h' =>
      have hPrepared := hUnwritten.own
      rw [hHeap'] at hPrepared hGray
      cases hPrepared with
      | some hPrepared =>
          exact ⟨j', h', hRun, hHeap', hPrepared.object, hPrepared.keys, Option.some.inj hGray⟩

end Calls

end Abi

end TaggedRuntime
