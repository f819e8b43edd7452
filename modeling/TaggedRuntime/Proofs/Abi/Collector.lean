import TaggedRuntime.Proofs.Abi.FieldStore
import TaggedRuntime.Proofs.Heap.Colors

/-! What calls from native code leave of the collector's knowledge. Between two
visits of the collector they may store any value in any table, and the
collector still finds every object that a visited table holds. -/

namespace TaggedRuntime

namespace Abi

open Table

section Operations

variable {h₀ h : Heap} {config : Config} {j : Journal Heap}

/-- After the barrier a black owner may be given the child. It is no black owner any more, or the
child is marked. -/
theorem writeBarrier_follows (hFollows : h₀.Follows h) (owner child : Handle) :
    HostM.Ensures (writeBarrier owner child : HostM Heap Unit) h
      (fun _ h' => h₀.Follows h' ∧ (h'.color? owner = some .black → h'.Marked child))
      h₀.Follows := by
  unfold HostM.Ensures
  rw [Heap.writeBarrier_run]
  cases hOwner : h.color? owner with
  | none => exact hFollows
  | some c =>
      cases c with
      | white => exact ⟨hFollows, fun hBlack => by simp [hOwner] at hBlack⟩
      | gray => exact ⟨hFollows, fun hBlack => by simp [hOwner] at hBlack⟩
      | black =>
          cases hChild : h.color? child with
          | none => exact hFollows
          | some d =>
              cases d with
              | white =>
                  refine ⟨hFollows.regrayed hOwner, fun hBlack => ?_⟩
                  simp [h.color?_regrayed (r := owner) (by simp [hOwner])] at hBlack
              | gray => exact ⟨hFollows, fun _ => ⟨.gray, hChild, by decide⟩⟩
              | black => exact ⟨hFollows, fun _ => ⟨.black, hChild, by decide⟩⟩

/-- A field of a table is overwritten in place, or stored under its key. An object that is stored in
a black table has to be marked before, which is what the barrier is for. -/
theorem storeCell_follows (hFollows : h₀.Follows j.host) {table : Handle} {a : Value}
    (hGuard : ∀ child, a.object? = some child →
      j.host.color? table = some .black → j.host.Marked child) (s : Str) (cache : FieldCache) :
    (storeCell table s a cache).Ensures config j (fun _ h => h₀.Follows h) h₀.Follows := by
  have hReachable := hFollows.consistent.reachable table
  refine storeCell_ensures hFollows (fun t hTable => (hReachable t hTable).wellFormed)
    (fun t t' op hTable hApply hStored => ?_) cache
  refine hFollows.changed hTable (hApply ▸ (hReachable t hTable).step op)
    fun v child hContains hChild => ?_
  rcases hStored.contains (hReachable t hTable).wellFormed.toChained (Value.isNil_of_object? hChild)
    hContains with hOld | rfl
  · exact Or.inl hOld
  · exact Or.inr (hGuard child hChild)

/-- Writing a field runs the barrier before the store, so nothing is asked of the value. A write
that is refused behind the barrier leaves a heap that is consistent, too. -/
theorem writeField_follows (hFollows : h₀.Follows j.host) (table : Handle) (id : UInt32)
    (v : FlatValue) (cache : FieldCache) :
    (writeField table id v cache).Ensures config j (fun _ h => h₀.Follows h) h₀.Follows := by
  unfold writeField
  refine Run.Ensures.bind (registeredKey_ensures id hFollows fun s hKey j₁ hj₁ => ?_)
  rw [← hj₁] at hFollows
  refine Run.Ensures.bind (Run.Ensures.host _ (FlatValue.toValue_objects v hFollows
    fun a h hObjects hGray j₂ hj₂ => ?_))
  have hMade : h₀.Follows j₂.host := hj₂ ▸ hFollows.congr hObjects hGray
  cases hChild : a.object? with
  | none =>
      refine storeCell_follows hMade (fun child hSome => ?_) s cache
      rw [hChild] at hSome
      cases hSome
  | some child =>
      refine Run.Ensures.bind (Run.Ensures.host _
        ((writeBarrier_follows hMade table child).mono ?_ fun _ hFailed => hFailed))
      rintro _ h' ⟨hGuarded, hMarked⟩ j₃ rfl
      refine storeCell_follows hGuarded (fun child' hSome => ?_) s cache
      rw [hChild] at hSome
      cases hSome
      exact hMarked

/-- A new table is white and holds nothing, so it is consistent with everything. -/
theorem createTable_follows (hFollows : h₀.Follows j.host) (arrayHint recordHint : Int64)
    (loc : Location) :
    (TaggedRuntime.createTable (σ := Heap) arrayHint recordHint loc).Ensures config j
      (fun _ h => h₀.Follows h) h₀.Follows := by
  apply TaggedRuntime.createTable_ensures hFollows
  · exact fun hRoom => hFollows.allocated hRoom
  · intro r h t t' arraySize hashSize hFollows' hTable hRun
    have hResize : (Operation.resize arraySize hashSize).change.run t = .ok () t' := hRun
    exact hFollows'.relaid hTable hResize rfl

/-- A slot is made to exist by laying the table out in another way. The values in it are the ones
that were there before. -/
theorem ensureArraySlot_follows (hFollows : h₀.Follows j.host) (array : Handle) (i : Int64)
    (loc : Location) :
    (TaggedRuntime.ensureArraySlot array i loc : Run Heap Unit).Ensures config j
      (fun _ h => h₀.Follows h) h₀.Follows := by
  apply TaggedRuntime.ensureArraySlot_ensures hFollows
  intro t t' size hTable hRun
  have hResize : (Operation.resizeArray size).change.run t = .ok () t' := hRun
  exact hFollows.relaid hTable hResize rfl

/-- Registering a name adds a string and a key. It touches no object. -/
theorem intern_follows (hFollows : h₀.Follows j.host) (name : Bytes) (loc : Location) :
    (Run.host loc (Heap.registerKey name)).Ensures config j (fun _ h => h₀.Follows h)
      h₀.Follows := by
  obtain ⟨s, h', hRun, hObjects, hGray⟩ := Heap.newStr_objects name j.host
  apply Run.Ensures.host
  unfold HostM.Ensures
  rw [Heap.registerKey_run hRun]
  by_cases hFull : Limits.handles ≤ j.host.keys.size
  · rw [if_pos hFull]
    trivial
  · rw [if_neg hFull]
    exact hFollows.congr hObjects hGray

theorem barrier_follows (hFollows : h₀.Follows j.host) (owner child : Handle) (loc : Location) :
    (Run.host loc (writeBarrier owner child : HostM Heap Unit)).Ensures config j
      (fun _ h => h₀.Follows h) h₀.Follows :=
  Run.Ensures.host _ ((writeBarrier_follows hFollows owner child).mono (fun _ _ h => h.1)
    fun _ hFailed => hFailed)

end Operations

/-! ### Calls -/

/-- Calls by which a program works on its heaps. Setting a colour is not one of them. -/
def Call.isMutator : Call → Bool
  | setColor _ _ => false
  | _ => true

/-- Runs of calls on the heaps of a process, none of which ended it. Each call is made
under settings of its own and names a heap of its own, or none. -/
inductive Mutates : Journal World → Journal World → Prop where
  | start : Mutates j j
  | call (hBefore : Mutates j j₁) (config : Config) (ref : HeapRef) (call : Call)
      (hMutator : call.isMutator = true) (hCall : call.make ref config j₁ = .ok done j₂) :
      Mutates j j₂

variable {h₀ : Heap} {heap ref : HeapRef} {config : Config} {j j' : Journal World}

/-- A call keeps what its operation keeps. The answer adds nothing to a heap. -/
theorem settle_has {α : Type} {x : Run Heap α} {inv : Heap → Prop} (hHas : j.host.Has heap inv)
    (hx : ∀ journal : Journal Heap, inv journal.host →
      x.Ensures config journal (fun _ h => inv h) inv) :
    Ensures (settle (onHeap ref x)) config j fun _ j' => j'.host.Has heap inv := by
  obtain ⟨h, hHeap, hInv⟩ := hHas
  by_cases hRef : heap = ref
  · subst hRef
    apply Ensures.settle hHeap fun journal hj => hx journal (hj ▸ hInv)
    · exact fun _ j' h' hHeap' hInv' => ⟨h', hHeap', hInv'⟩
    · exact fun _ j' h' hHeap' hInv' => ⟨h', hHeap', hInv'⟩
  · exact (Ensures.settle_other hRef x).mono fun _ j' hSame => ⟨h, hSame.trans hHeap, hInv⟩

/-- Every call that a mutator makes keeps the heap consistent, and lets it evolve. This is the step
behind all runs. -/
theorem Call.make_follows (hHas : j.host.Has heap h₀.Follows) (ref : HeapRef) (call : Call)
    (hMutator : call.isMutator = true) (config : Config) :
    Ensures (call.make ref) config j fun _ j' => j'.host.Has heap h₀.Follows := by
  cases call with
  | createTable arrayHint recordHint site =>
      apply Ensures.bind
      refine (settle_has hHas fun _ hFollows =>
        createTable_follows hFollows arrayHint recordHint site.location).mono fun a j' hHas' => ?_
      cases a <;> exact Ensures.pure hHas'
  | intern name =>
      apply Ensures.bind
      refine (settle_has hHas fun _ hFollows => intern_follows hFollows name {}).mono
        fun a j' hHas' => ?_
      cases a <;> exact Ensures.pure hHas'
  | setField table id value cache =>
      cases cache with
      | none => exact hHas
      | some cache =>
          apply Ensures.bind
          apply Ensures.bind
          refine (settle_has hHas fun _ hFollows =>
            writeField_follows hFollows table id value cache).mono fun a j' hHas' => ?_
          cases a <;> exact Ensures.pure hHas'
  | getField table id cache =>
      cases cache with
      | none => exact hHas
      | some cache =>
          apply Ensures.bind
          apply Ensures.bind
          refine (settle_has hHas fun _ hFollows =>
            readField_ensures hFollows table id cache).mono fun a j' hHas' => ?_
          cases a with
          | error e => exact Ensures.pure hHas'
          | ok answer =>
              dsimp only
              cases FlatValue.ofValue? answer.1 <;> exact hHas'
  | ensureArraySlot array i site =>
      apply Ensures.bind
      refine (settle_has hHas fun _ hFollows =>
        ensureArraySlot_follows hFollows array i site.location).mono fun a j' hHas' => ?_
      exact Ensures.pure hHas'
  | barrier owner child =>
      apply Ensures.bind
      refine (settle_has hHas fun _ hFollows => barrier_follows hFollows owner child {}).mono
        fun a j' hHas' => ?_
      exact Ensures.pure hHas'
  | setColor object color => cases hMutator

/-- A run of calls keeps what one call keeps. The induction is on the run, and each call may use
settings of its own. -/
theorem Mutates.has (hMutates : Mutates j j') (hHas : j.host.Has heap h₀.Follows) :
    j'.host.Has heap h₀.Follows := by
  induction hMutates with
  | start => exact hHas
  | @call j₁ done j₂ _ config ref call hMutator hCall ih =>
      have hMake := call.make_follows ih ref hMutator config
      unfold Ensures at hMake
      rw [hCall] at hMake
      exact hMake

/-- Whatever a program does to a consistent heap, it stays consistent; no colour
changes but from black to gray; and what turned gray was queued, once for each
change. -/
theorem mutates_consistent (hMutates : Mutates j j') (heap : HeapRef) {h : Heap}
    (hHeap : j.host.heap? heap = some h) (hConsistent : h.Consistent) :
    ∃ h', j'.host.heap? heap = some h' ∧ h'.Consistent ∧ h.Evolves h' := by
  have hStart : j.host.Has heap h.Follows := ⟨h, hHeap, hConsistent, .refl h⟩
  obtain ⟨h', hHeap', hFollows⟩ := hMutates.has hStart
  exact ⟨h', hHeap', hFollows.consistent, hFollows.evolves⟩

/-- A heap with a black table, a white one and one key. -/
private def visited : Heap :=
  { objects := #[⟨.black, .table {}⟩, ⟨.white, .table {}⟩], keys := #[⟨0, 0, [102]⟩], serial := 1 }

private theorem visited_object? {r : Handle} {t : Table}
    (hTable : visited.object? r = some (.table t)) : t = {} := by
  obtain ⟨e, hMem, hObject⟩ := Heap.mem_of_object? hTable
  simp only [visited, List.mem_toArray, List.mem_cons, List.not_mem_nil, or_false] at hMem
  rcases hMem with rfl | rfl
  · cases hObject
    rfl
  · cases hObject
    rfl

/-- A white table that is stored in a black one turns that gray. -/
theorem mutates_consistent_stored : ∃ j j' h', Mutates j j' ∧ j.host.heap? (some 0) = some visited ∧
    j'.host.heap? (some 0) = some h' ∧ h'.Consistent ∧
    h'.grayAgain = [⟨0⟩] ∧ h'.color? ⟨0⟩ = some .gray := by
  have hConsistent : visited.Consistent := by
    refine ⟨fun r t hTable => visited_object? hTable ▸ .new none,
      fun r t v child _ hTable hContains hChild => ?_⟩
    rw [visited_object? hTable] at hContains
    exact absurd hContains (not_contains_empty (Value.isNil_of_object? hChild))
  obtain ⟨j', hCall, hSeen⟩ : ∃ j', (Call.setField ⟨0⟩ 0 { tag := FlatValue.tagTable, bits := 1 }
      (some .unset)).make (some 0) {} { host := { heaps := #[visited] } } =
        .ok [.stored ⟨0⟩ 0 { tag := FlatValue.tagTable, bits := 1 }] j' ∧
      (j'.host.heap? (some 0)).map (fun h => (h.grayAgain, h.color? ⟨0⟩)) =
        some ([⟨0⟩], some .gray) := ⟨_, rfl, rfl⟩
  have hMutates := Mutates.start.call {} (some 0) _ rfl hCall
  obtain ⟨h', hHeap', hConsistent', _⟩ := mutates_consistent hMutates (some 0) rfl hConsistent
  rw [hHeap', Option.map_some, Option.some.injEq, Prod.mk.injEq] at hSeen
  exact ⟨_, j', h', hMutates, rfl, hHeap', hConsistent', hSeen⟩

end Abi

end TaggedRuntime
