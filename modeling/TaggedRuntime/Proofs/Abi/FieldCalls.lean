import TaggedRuntime.Abi.Entry
import TaggedRuntime.Proofs.Abi.FieldLog
import TaggedRuntime.Proofs.Heap.Growth

/-! The operations behind the calls that make tables, register names, and read
and write fields. Each keeps the history that the heap stands for, or adds what
it did to it, also when it fails half-way. -/

namespace TaggedRuntime.Abi

open Table

variable {history : History} {config : Config} {j : Journal Heap}

/-- A table of another size holds the same under every key. The sizes may be any that the rebuild
does not refuse. -/
theorem resize_sameEntries {t t' : Table} (hWell : t.WellFormed) {arraySize hashSize : Nat}
    (hRun : (resize arraySize hashSize).run t = .ok () t') : t.SameEntries t' := by
  rcases resize_cases hWell arraySize hashSize with ⟨t₁, hDone, hSame⟩ | ⟨t₁, _, hRefused⟩
  · rw [hDone, EStateM.Result.ok.injEq] at hRun
    exact hRun.2 ▸ hSame
  · rw [hRefused] at hRun
    cases hRun

/-- Making a table adds to the history that it was made. A refusal adds nothing. -/
theorem createTable_ensures (hRep : Represents history j.host) (arrayHint recordHint : Int64)
    (loc : Location) :
    (TaggedRuntime.createTable (σ := Heap) arrayHint recordHint loc).Ensures config j
      (fun r h => Represents (.created r :: history) h) (Represents history) := by
  apply TaggedRuntime.createTable_ensures hRep
  · intro hRoom
    exact hRep.allocated (Heap.object?_next hRoom) (Heap.object?_withNew hRoom _) rfl rfl
  · intro r h t t' arraySize hashSize hRep' hTable hRun
    exact hRep'.relaid hTable (resize_sameEntries (hRep'.table hTable).1 hRun)

/-- Registering a name adds the name under its number. A name may be registered more than once, and
gets another number each time. -/
theorem intern_ensures (hRep : Represents history j.host) (name : Bytes) (loc : Location) :
    (Run.host loc (Heap.registerKey name)).Ensures config j
      (fun id h => Represents (.interned id name :: history) h) (Represents history) := by
  refine Run.Ensures.host _ (Heap.registerKey_ensures hRep.interned name ?_)
  rintro id s h' rfl hCanonical hGrown hNew hKeys
  exact (hRep.grown hGrown).registered hCanonical hNew rfl rfl hKeys

/-- The barrier changes colours only, so the heap stands for the same history. -/
theorem barrier_ensures (hRep : Represents history j.host) (owner child : Handle) (loc : Location) :
    (Run.host loc (writeBarrier owner child : HostM Heap Unit)).Ensures config j
      (fun _ h => Represents history h) (Represents history) :=
  Run.Ensures.host _ (Heap.writeBarrier_ensures owner child hRep fun _ hColored =>
    hRep.recolored hColored)

/-- Making a slot exist adds nothing to the history: a slot by itself holds no value. -/
theorem ensureArraySlot_ensures (hRep : Represents history j.host) (array : Handle) (i : Int64)
    (loc : Location) :
    (TaggedRuntime.ensureArraySlot array i loc : Run Heap Unit).Ensures config j
      (fun _ h => Represents history h) (Represents history) := by
  apply TaggedRuntime.ensureArraySlot_ensures hRep
  intro t t' size hTable hRun
  rw [resizeArray_run] at hRun
  exact hRep.relaid hTable (resize_sameEntries (hRep.table hTable).1 hRun)

/-- The key of a number is the string that was registered for it. A number that was never given out
is a fault. -/
theorem registeredKey_run (id : UInt32) (config : Config) (j : Journal Heap) :
    registeredKey id config j =
      match j.host.key? id with
      | some s => .ok s j
      | none => .error (.fault (.unknownKey id)) j := by
  unfold registeredKey
  change (match j.host.key? id with
    | some s => (return s : Run Heap Str)
    | none => (throw (Failure.fault (.unknownKey id)) : Run Heap Str)) config j = _
  cases j.host.key? id <;> rfl

/-- Looking up a registered key leaves the heap as it is, whether there is one or not. -/
theorem registeredKey_ensures {done : Str → Heap → Prop} {failed : Heap → Prop} (id : UInt32)
    (hFailed : failed j.host) (hDone : ∀ s, j.host.key? id = some s → done s j.host) :
    (registeredKey id).Ensures config j done failed := by
  unfold Run.Ensures
  rw [registeredKey_run]
  cases hKey : j.host.key? id with
  | none => exact hFailed
  | some s => exact hDone s hKey

/-- The cell that is read is the one of the table's own look-up. The key has to be registered and
the table has to be there; the cache may be any and is left as some other one. -/
theorem readField_run {t : Table} {s : Str} {table : Handle} {id : UInt32}
    (hKey : j.host.key? id = some s) (hTable : j.host.object? table = some (.table t))
    (hChained : t.Chained) (config : Config) (cache : FieldCache) :
    ∃ after, readField table id cache config j = .ok (t.getStr s, after) j := by
  obtain ⟨after, hRead⟩ := getField_eq hChained s config cache
  refine ⟨after, ?_⟩
  unfold readField
  simp only [bind, ReaderT.bind, EStateM.bind, registeredKey_run, hKey, Run.host_run,
    Heap.table_run, hTable]
  change Run.ofFault (TaggedRuntime.getField config t s cache) config j = _
  rw [hRead]
  rfl

/-- Reading a field leaves the heap as it is. A fault leaves it so as well. -/
theorem readField_ensures {inv : Heap → Prop} (hInv : inv j.host) (table : Handle) (id : UInt32)
    (cache : FieldCache) :
    (readField table id cache).Ensures config j (fun _ h => inv h) inv := by
  unfold readField
  refine Run.Ensures.bind (registeredKey_ensures id hInv fun s hKey j₁ hj₁ => ?_)
  rw [← hj₁] at hInv
  refine Run.Ensures.bind (Run.Ensures.host _ (Heap.table_ensures hInv fun t hTable j₂ hj₂ => ?_))
  rw [← hj₂] at hInv
  refine Run.Ensures.bind (Run.Ensures.read fun j₃ hj₃ => ?_)
  rw [← hj₃] at hInv
  exact Run.Ensures.ofFault (fun _ _ => hInv) fun _ _ => hInv

/-- A store under a string that is not refused leaves the value under that string, and under every
other key what was there. -/
theorem setStr_stored {t t' : Table} (hWell : t.WellFormed) {s : Str} {a : Value}
    (hRun : (setStr s a).run t = .ok () t') : t.Stored t' (.str s) a :=
  stores_setKey 1 t (.str s) a hWell (by simp) t' hRun

/-- What is left of storing a field when its value was made and the barrier was run. -/
def storeCell (table : Handle) (s : Str) (a : Value) (cache : FieldCache) :
    Run Heap FieldCache := do
  let t ← Run.host {} (Heap.table table)
  let (overwritten, cache) ← Run.ofFault (overwriteField (← read) t s a cache)
  match overwritten with
  | some (_, t) => Run.host {} (Heap.setObject table (.table t))
  | none => Run.host {} (Heap.onTable table (Table.setStr s a))
  return cache

/-- A store into a cell writes through the cell of the key, or stores under the key. Which of the
two it is depends on the table and not on the cache. -/
theorem storeCell_cases {t : Table} {table : Handle} (hWell : t.WellFormed)
    (hTable : j.host.object? table = some (.table t)) (s : Str) (a : Value) (config : Config)
    (cache : FieldCache) : ∃ after,
      (∃ written, t.overwriteStr? s a = some written ∧ storeCell table s a cache config j =
        .ok after { j with host := j.host.withObject table (.table written.2) }) ∨
      (t.overwriteStr? s a = none ∧ storeCell table s a cache config j =
        (Run.host {} (Heap.onTable table (setStr s a)) >>= fun _ => pure after :
          Run Heap FieldCache) config j) := by
  obtain ⟨after, hOverwrite⟩ := overwriteField_eq hWell.toChained s config cache a
  have hRead : (MonadReader.read : Run Heap Config) config j = .ok config j := rfl
  have hCell : (Run.ofFault (.ok (t.overwriteStr? s a, after)) :
      Run Heap (Option (Value × Table) × FieldCache)) config j =
        .ok (t.overwriteStr? s a, after) j := rfl
  refine ⟨after, ?_⟩
  cases hWrite : t.overwriteStr? s a with
  | some written =>
      refine .inl ⟨written, rfl, ?_⟩
      unfold storeCell
      simp only [Run.bind_run, Run.host_run, Heap.table_run, hTable, hRead, hOverwrite, hCell]
      rw [hWrite]
      rfl
  | none =>
      refine .inr ⟨rfl, ?_⟩
      unfold storeCell
      rw [Run.bind_run, Run.host_run, Heap.table_run, hTable]
      dsimp only
      rw [Run.bind_run, hRead]
      dsimp only
      rw [hOverwrite, Run.bind_run, hCell, hWrite]

/-- Storing in a cell puts into the place of the table one that holds the value under the key. The
table before has to be well-formed; which way the store goes does not matter. -/
theorem storeCell_ensures {done : Heap → Prop} {failed : Heap → Prop} {table : Handle} {s : Str}
    {a : Value} (hFailed : failed j.host)
    (hWell : ∀ t, j.host.object? table = some (.table t) → t.WellFormed)
    (hDone : ∀ t t' (op : Operation), j.host.object? table = some (.table t) → op.apply t = t' →
      t.Stored t' (.str s) a → done (j.host.withObject table (.table t'))) (cache : FieldCache) :
    (storeCell table s a cache).Ensures config j (fun _ => done) failed := by
  rcases Heap.table_cases table j.host with ⟨t, hTable⟩ | ⟨f, hFault⟩
  · have hStart := hWell t hTable
    obtain ⟨after, ⟨written, hWrite, hRun⟩ | ⟨_, hRun⟩⟩ :=
      storeCell_cases hStart hTable s a config cache
    · unfold Run.Ensures
      rw [hRun]
      exact hDone t _ _ hTable (Operation.apply_overwriteStr hWrite)
        (overwritten_of_overwriteStr? hStart hWrite).stored
    · unfold Run.Ensures
      rw [hRun]
      refine Run.Ensures.bind (Run.Ensures.host _ (Heap.onTable_ensures hFailed
        fun t₂ hTable₂ _ t' hStore j' hj' => ?_))
      rw [hTable] at hTable₂
      cases hTable₂
      refine Run.Ensures.pure ?_
      rw [hj']
      have hApply : (Operation.setStr s a).apply t = t' := by
        rw [Operation.apply, Operation.change, hStore]
      exact hDone t _ _ hTable hApply (setStr_stored hStart hStore)
  · unfold storeCell Run.Ensures
    rw [Run.bind_run, Run.host_run, hFault]
    exact hFailed

/-- A value that is stored is the last one under its key. -/
theorem storeField_ensures (hRep : Represents history j.host) (table : Handle) {id : UInt32}
    {s : Str} (hKey : j.host.key? id = some s) {v : FlatValue} {a : Value} (hDecodes : v.Decodes a)
    (cache : FieldCache) :
    (storeCell table s a cache).Ensures config j
      (fun _ h => Represents (.stored table id v :: history) h) (Represents history) :=
  storeCell_ensures hRep (fun _ hTable => (hRep.table hTable).1)
    (fun _ _ _ hTable _ hStored => hRep.written hTable hKey hDecodes hStored) cache

/-- Writing a field from native code adds the store to the history, or fails and adds nothing. The
cache in hand may be anything. -/
theorem writeField_ensures (hRep : Represents history j.host) (table : Handle) (id : UInt32)
    (v : FlatValue) (cache : FieldCache) :
    (writeField table id v cache).Ensures config j
      (fun _ h => Represents (.stored table id v :: history) h) (Represents history) := by
  unfold writeField
  refine Run.Ensures.bind (registeredKey_ensures id hRep fun s hKey j₁ hj₁ => ?_)
  rw [← hj₁] at hRep hKey
  refine Run.Ensures.bind (Run.Ensures.host _ (FlatValue.toValue_ensures hRep.interned v hRep
    fun a h hDecodes hGrown j₂ hj₂ => ?_))
  have hRep₂ : Represents history j₂.host := hj₂ ▸ hRep.grown hGrown
  have hKey₂ : j₂.host.key? id = some s := by
    rw [hj₂, Heap.key?_congr hGrown.keys]
    exact hKey
  cases hChild : a.object? with
  | none => exact storeField_ensures hRep₂ table hKey₂ hDecodes cache
  | some child =>
      refine Run.Ensures.bind (Run.Ensures.host _ (Heap.writeBarrier_ensures table child ?_
        fun h' hColored j₃ hj₃ => ?_))
      · exact hRep₂
      · have hRep₃ : Represents history j₃.host := hj₃ ▸ hRep₂.recolored hColored
        have hKey₃ : j₃.host.key? id = some s := by
          rw [hj₃, Heap.key?_congr hColored.keys]
          exact hKey₂
        exact storeField_ensures hRep₃ table hKey₃ hDecodes cache

end TaggedRuntime.Abi
