import TaggedRuntime.Proofs.Abi.ArrayLimit

/-! Whatever native code and the operations behind its calls do, the tables of all heaps stay
well-formed. -/

namespace TaggedRuntime

/-- A new table is well-formed, and the ones that are there are not touched. A table that is refused
adds none. -/
theorem createTable_sound (arrayHint recordHint : Int64) (loc : Location) :
    (createTable (σ := Heap) arrayHint recordHint loc).Keeps (Heap.Tables Table.WellFormed) :=
  fun _ => keeps_createTable Table.wellFormed_new fun _ =>
    (Table.Operation.resize _ _).left_change {} ▸
      (Table.Operation.resize _ _).wellFormed_apply Table.wellFormed_new

/-- A table in which a slot is made to exist stays well-formed, also when the growth is refused
halfway. -/
theorem ensureArraySlot_sound (array : Handle) (i : Int64) (loc : Location) :
    (ensureArraySlot array i loc : Run Heap Unit).Keeps (Heap.Tables Table.WellFormed) :=
  fun _ => keeps_ensureArraySlot (fun t _ hWell _ _ =>
    (Table.Operation.resizeArray _).left_change t ▸
      (Table.Operation.resizeArray _).wellFormed_apply hWell) array i

/-- Looking for a metatable changes no table. -/
theorem checkArrayMetatable_sound (array : Handle) (loc : Location) :
    (checkArrayMetatable array loc : Run Heap Unit).Keeps (Heap.Tables Table.WellFormed) := by
  have hMetatable : Keeps (Heap.Tables Table.WellFormed)
      (HeapManager.hasMetatable array : HostM Heap Bool) :=
    .bind (Heap.keeps_table array) fun _ => .pure _
  refine .bind (.host loc hMetatable) fun metatable => ?_
  split
  next => exact .raise _ loc
  next => exact .pure ()

namespace Abi

/-- All tables of all heaps are well-formed. -/
def World.Sound (w : World) : Prop := ∀ ref h, w.heap? ref = some h → h.Tables Table.WellFormed

variable {α : Type}

theorem sound_new : World.Sound {} := by
  intro ref h hRef
  cases ref <;> simp [World.heap?] at hRef

/-- Another heap brings no tables with it. -/
theorem World.Sound.push {w : World} (hSound : w.Sound) (number : Nat) :
    World.Sound { w with heaps := w.heaps.push { number } } := by
  intro ref h hRef
  obtain ⟨i, rfl, hHeap⟩ := Option.bind_eq_some_iff.mp hRef
  rw [Array.getElem?_push] at hHeap
  split at hHeap
  next =>
    cases hHeap
    intro r t hTable
    simp [Heap.object?] at hTable
  next => exact hSound (some i) h hHeap

/-- An operation on one heap that leaves its tables well-formed leaves all of them so. This is asked
only from the heap that is there, so it can be used where the operation keeps nothing in general. -/
theorem sound_onHeap_of {x : Run Heap α} {heap : HeapRef} {config : Config} {j : Journal World}
    (hSound : j.host.Sound) (hLeft : ∀ h, j.host.heap? heap = some h →
      (left (x config) { host := h, events := j.events, output := j.output }).host.Tables
        Table.WellFormed) : (left (onHeap heap x config) j).host.Sound := by
  cases hHeap : j.host.heap? heap with
  | none => rwa [Run.left_of_error (onHeap_null x config hHeap)]
  | some h =>
      intro ref h' hRef
      by_cases hSame : ref = heap
      · subst hSame
        rw [left_onHeap_heap? x config hHeap] at hRef
        cases hRef
        exact hLeft h hHeap
      · rw [left_onHeap_other x config hSame] at hRef
        exact hSound ref h' hRef

/-- What keeps the tables of its heap well-formed keeps all of them so. -/
theorem sound_onHeap {x : Run Heap α} (hx : x.Keeps (Heap.Tables Table.WellFormed))
    (heap : HeapRef) : (onHeap heap x).Keeps World.Sound :=
  fun config _ hSound => sound_onHeap_of hSound fun h hHeap => hx config _ (hSound heap h hHeap)

/-- An answer adds nothing to what the operation behind it left but the last error, which is no part
of the heaps. -/
theorem sound_settle {x : Run World α} (hx : x.Keeps World.Sound) (config : Config) :
    Keeps (fun j => j.host.Sound) (settle x config) := by
  intro j hSound ref h hRef
  rw [left_settle_heap?] at hRef
  exact hx config j hSound ref h hRef

/-- A loop of native code changes no heap. Its body has a state of its own, and what it calls are
calls of their own. -/
theorem sound_looped {R S : Type} (site : Site) (range : Except ErrorKind R)
    (loop : R → Option Unit × S) (state : S) (config : Config) :
    Keeps (fun j => j.host.Sound) (looped site range loop state config) := by
  refine .bind (sound_settle (.ofExcept site.location range) config) fun answer => ?_
  cases answer <;> exact .pure _

/-- Colours say nothing of tables. A word that is no colour changes nothing. -/
theorem sound_setColor (heap : HeapRef) (object : Handle) (color : UInt32) (config : Config) :
    Keeps (fun j => j.host.Sound) (setColor heap object color config) := by
  intro j hSound
  rcases setColor_cases heap object color with hNone | ⟨c, hRun⟩
  · rwa [left_of_ok (x := setColor heap object color config) (hNone config j)]
  · have hKept := sound_onHeap (.host {} (Heap.keeps_setColor object c)) heap config j hSound
    have hSet := hRun config j
    cases hOutcome : onHeap heap (Run.host {} (Heap.setColor object c)) config j with
    | ok _ j' =>
        rw [hOutcome] at hSet
        rw [Run.left_of_ok hOutcome] at hKept
        rwa [left_of_ok (x := setColor heap object color config) hSet]
    | error _ j' =>
        rw [hOutcome] at hSet
        rwa [left_of_ok (x := setColor heap object color config) hSet]

theorem readField_sound (table : Handle) (key : UInt32) (cache : FieldCache) :
    (readField table key cache).Keeps (Heap.Tables Table.WellFormed) := by
  refine .bind (.bind .get fun j => ?_) fun s =>
    .bind (.host {} (Heap.keeps_table table)) fun t => .bind .read fun config => .ofFault _
  split
  next => exact .pure _
  next => exact .fault _

/-- A call that reads a field keeps all tables well-formed, with a cache or without. -/
theorem sound_getField (heap : HeapRef) (table : Handle) (key : UInt32) (cache : Option FieldCache)
    (config : Config) : Keeps (fun j => j.host.Sound) (getField heap table key cache config) := by
  cases cache with
  | none => exact fun _ hSound => hSound
  | some cache =>
      have hRead := sound_settle (sound_onHeap (readField_sound table key cache) heap) config
      refine .bind hRead fun answer => ?_
      cases answer with
      | error r => exact .pure _
      | ok read =>
          dsimp only
          cases FlatValue.ofValue? read.1 with
          | some v => exact .pure _
          | none => exact fun _ hSound => hSound

/-- A call that writes a field keeps all tables well-formed, whatever the cache says and whether the
write is refused or not. -/
theorem sound_setField (heap : HeapRef) (table : Handle) (key : UInt32) (value : FlatValue)
    (cache : Option FieldCache) (config : Config) :
    Keeps (fun j => j.host.Sound) (setField heap table key value cache config) := by
  cases cache with
  | none => exact fun _ hSound => hSound
  | some cache =>
      have hWrite := keeps_writeField (fun _ hWell => hWell)
        (fun _ op hWell => op.wellFormed_apply hWell) table key value cache
      refine .bind (sound_settle (sound_onHeap hWrite heap) config) fun answer => ?_
      cases answer <;> exact .pure _

end Abi

end TaggedRuntime
