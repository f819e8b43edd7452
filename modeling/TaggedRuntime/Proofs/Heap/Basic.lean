import TaggedRuntime.Host.Basic
import TaggedRuntime.Proofs.Contract
import TaggedRuntime.Proofs.Table.Key
import TaggedRuntime.Strings

/-! Operations on a heap, each by what it leaves of the objects, the interned
strings and the registered keys. -/

namespace TaggedRuntime

theorem Handle.eq_of_toNat_eq {q r : Handle} (h : q.index.toNat = r.index.toNat) : q = r := by
  cases q
  cases r
  exact congrArg Handle.mk (UInt32.toNat_inj.mp h)

namespace Heap

variable {h h' : Heap} {r : Handle} {failed : Heap → Prop}

/-- The object of a handle. -/
def object? (h : Heap) (r : Handle) : Option Object := h.objects[r.index.toNat]?.map (·.object)

theorem object?_congr (hObjects : h'.objects = h.objects) (r : Handle) :
    h'.object? r = h.object? r := by
  unfold object?
  rw [hObjects]

theorem mem_of_object? {o : Object} (hObject : h.object? r = some o) :
    ∃ e ∈ h.objects, e.object = o := by
  obtain ⟨e, he, hSame⟩ := Option.map_eq_some_iff.mp hObject
  exact ⟨e, Array.mem_of_getElem? he, hSame⟩

theorem key?_congr (hKeys : h'.keys = h.keys) (id : UInt32) : h'.key? id = h.key? id := by
  unfold key?
  rw [hKeys]

/-- A handle without an entry is a fault. Nothing is changed by looking. -/
theorem entry_run (r : Handle) (h : Heap) : (entry r).run h =
    match h.objects[r.index.toNat]? with
    | some e => .ok e h
    | none => .error (.fault (.noObject r)) h := by
  change (match h.objects[r.index.toNat]? with
    | some e => (return e : HostM Heap Entry)
    | none => fault (.noObject r)).run h = _
  cases h.objects[r.index.toNat]? <;> rfl

/-- A table is looked at through its handle. A handle of something else is a fault, and so is one of
nothing. -/
theorem table_run (r : Handle) (h : Heap) : (table r).run h =
    match h.object? r with
    | some (.table t) => .ok t h
    | some (.userdata _) => .error (.fault (.notTable r)) h
    | none => .error (.fault (.noObject r)) h := by
  unfold table object object?
  rw [EStateM.run_bind, EStateM.run_bind, entry_run]
  cases h.objects[r.index.toNat]? with
  | none => rfl
  | some e => cases hObject : e.object <;> simp [hObject, fault]

/-- A table is there, or looking at it fails and leaves the heap as it is. -/
theorem table_cases (r : Handle) (h : Heap) : (∃ t, h.object? r = some (.table t)) ∨
    ∃ f, (table r).run h = .error (.fault f) h := by
  rw [table_run]
  cases h.object? r with
  | none => exact Or.inr ⟨_, rfl⟩
  | some o =>
      cases o with
      | table t => exact Or.inl ⟨t, rfl⟩
      | userdata u => exact Or.inr ⟨_, rfl⟩

/-- What holds of a table that is there, and of a failure that changes nothing, is ensured. This is
what an operation on a table starts from. -/
theorem table_ensures {done : Table → Heap → Prop} (hFailed : failed h)
    (hDone : ∀ t, h.object? r = some (.table t) → done t h) :
    HostM.Ensures (table r) h done failed := by
  unfold HostM.Ensures
  rw [table_run]
  cases hObject : h.object? r with
  | none => exact hFailed
  | some o =>
      cases o with
      | table t => exact hDone t hObject
      | userdata u => exact hFailed

/-! ### Colours -/

/-- Heaps that differ in what the collector knows. -/
structure Recolored (h h' : Heap) : Prop where
  object : ∀ r, h'.object? r = h.object? r
  strings : h'.strings = h.strings
  keys : h'.keys = h.keys

/-- The colour of a handle's object. -/
def color? (h : Heap) (r : Handle) : Option Color := h.objects[r.index.toNat]?.map (·.color)

theorem color?_eq_none : h.color? r = none ↔ h.object? r = none := by
  simp only [color?, object?, Option.map_eq_none_iff]

theorem color_run (r : Handle) (h : Heap) : (color r).run h =
    match h.color? r with
    | some c => .ok c h
    | none => .error (.fault (.noObject r)) h := by
  unfold color color?
  rw [EStateM.run_bind, entry_run]
  cases h.objects[r.index.toNat]? <;> rfl

/-- Setting a colour changes the colour of one entry. Where there is no entry it is a fault. -/
theorem setColor_run (r : Handle) (c : Color) (h : Heap) : (setColor r c).run h =
    match h.objects[r.index.toNat]? with
    | some _ => .ok () { h with objects := h.objects.modify r.index.toNat fun e => { e with color := c } }
    | none => .error (.fault (.noObject r)) h := by
  unfold setColor
  rw [EStateM.run_bind, entry_run]
  cases h.objects[r.index.toNat]? <;> rfl

/-- An entry with another colour is the same object. -/
theorem recolored_modify (h : Heap) (n : Nat) (c : Color) :
    h.Recolored { h with objects := h.objects.modify n fun e => { e with color := c } } where
  object r := by
    simp only [object?, Array.getElem?_modify]
    split
    next => cases h.objects[r.index.toNat]? <;> rfl
    next => rfl
  strings := rfl
  keys := rfl

/-- Setting a colour leaves a heap that differs in colours only, or fails and changes nothing. -/
theorem setColor_ensures {done : Unit → Heap → Prop} (c : Color) (hFailed : failed h)
    (hDone : ∀ h', h.Recolored h' → done () h') : HostM.Ensures (setColor r c) h done failed := by
  unfold HostM.Ensures
  rw [setColor_run]
  cases h.objects[r.index.toNat]? with
  | none => exact hFailed
  | some e => exact hDone _ (h.recolored_modify _ c)

/-- The heap with a black object turned gray and queued. -/
def regrayed (h : Heap) (owner : Handle) : Heap :=
  { h with
    objects := h.objects.modify owner.index.toNat fun e => { e with color := .gray }
    grayAgain := h.grayAgain ++ [owner] }

/-- Turning an owner back changes its colour and the queue of the collector, and nothing else. -/
theorem recolored_regrayed (h : Heap) (owner : Handle) : h.Recolored (h.regrayed owner) :=
  ⟨(h.recolored_modify owner.index.toNat .gray).object, rfl, rfl⟩

/-- A black owner is turned gray and queued. -/
theorem barrierBack_run {owner : Handle} (hBlack : h.color? owner = some .black) :
    (barrierBack owner).run h = .ok () (h.regrayed owner) := by
  have hHeld : ∃ e, h.objects[owner.index.toNat]? = some e := by
    obtain ⟨e, he, _⟩ := Option.map_eq_some_iff.mp hBlack
    exact ⟨e, he⟩
  obtain ⟨e, he⟩ := hHeld
  unfold barrierBack
  rw [EStateM.run_bind, color_run, hBlack]
  simp only [if_true, EStateM.run_bind, setColor_run, he]
  rfl

theorem isColor_run (r : Handle) (c : Color) (h : Heap) :
    (do return (← color r) = c : HostM Heap Bool).run h =
      match h.color? r with
      | some d => .ok (d = c) h
      | none => .error (.fault (.noObject r)) h := by
  rw [EStateM.run_bind, color_run]
  cases h.color? r <;> rfl

/-- The barrier turns a black owner of a white child back, and fails where it has to look at an
object that is none. It looks at the child only under a black owner. -/
theorem writeBarrier_run (owner child : Handle) (h : Heap) :
    (writeBarrier owner child : HostM Heap Unit).run h =
      match h.color? owner with
      | none => .error (.fault (.noObject owner)) h
      | some .black =>
        match h.color? child with
        | none => .error (.fault (.noObject child)) h
        | some .white => .ok () (h.regrayed owner)
        | some _ => .ok () h
      | some _ => .ok () h := by
  have hWhite := isColor_run child .white h
  unfold writeBarrier
  change EStateM.run ((do return (← color owner) = .black : HostM Heap Bool) >>= fun black =>
    if black = true then
      (do return (← color child) = .white : HostM Heap Bool) >>= fun white =>
        if white = true then barrierBack owner else pure ()
    else pure ()) h = _
  rw [EStateM.run_bind, isColor_run]
  cases hOwner : h.color? owner with
  | none => rfl
  | some c =>
      cases c with
      | white => rfl
      | gray => rfl
      | black =>
          simp only [decide_true, if_true]
          rw [EStateM.run_bind, hWhite]
          cases h.color? child with
          | none => rfl
          | some d =>
              cases d with
              | white => exact barrierBack_run hOwner
              | gray => rfl
              | black => rfl

/-- The barrier changes colours only. Whatever holds in spite of colours is ensured of it. -/
theorem writeBarrier_ensures {done : Unit → Heap → Prop} (owner child : Handle)
    (hFailed : failed h) (hDone : ∀ h', h.Recolored h' → done () h') :
    HostM.Ensures (writeBarrier owner child : HostM Heap Unit) h done failed := by
  have hSame := hDone h ⟨fun _ => rfl, rfl, rfl⟩
  unfold HostM.Ensures
  rw [writeBarrier_run]
  cases h.color? owner with
  | none => exact hFailed
  | some c =>
      cases c with
      | white => exact hSame
      | gray => exact hSame
      | black =>
          cases h.color? child with
          | none => exact hFailed
          | some d =>
              cases d with
              | white => exact hDone _ (h.recolored_regrayed owner)
              | gray => exact hSame
              | black => exact hSame

/-! ### Objects -/

/-- The heap with another object in the place of one. -/
def withObject (h : Heap) (r : Handle) (o : Object) : Heap :=
  { h with objects := h.objects.modify r.index.toNat fun e => { e with object := o } }

/-- An object that is put in the place of another is behind the same handle, and nothing else has
moved. -/
theorem object?_withObject (hHeld : (h.object? r).isSome = true) (o : Object) (q : Handle) :
    (h.withObject r o).object? q = if q = r then some o else h.object? q := by
  simp only [object?, withObject, Array.getElem?_modify]
  by_cases hEq : q = r
  · subst hEq
    simp only [object?, Option.isSome_map] at hHeld
    obtain ⟨e, he⟩ := Option.isSome_iff_exists.mp hHeld
    simp [he]
  · have hIndex : r.index.toNat ≠ q.index.toNat :=
      fun hSame => hEq (Handle.eq_of_toNat_eq hSame.symm)
    simp [hEq, hIndex]

theorem object?_withObject_self {old : Object} (hHeld : h.object? r = some old) (o : Object) :
    (h.withObject r o).object? r = some o := by
  rw [object?_withObject (by rw [hHeld]; rfl), if_pos rfl]

/-- Nothing is lost from a heap in which one object was put in its place. -/
theorem isSome_object?_of_put {o : Object} {q : Handle} (hq : (h.object? q).isSome = true)
    (hObjects : ∀ q, h'.object? q = if q = r then some o else h.object? q) :
    (h'.object? q).isSome = true := by
  rw [hObjects]
  split
  next => rfl
  next => exact hq

/-- A change of a table that is carried out replaces it. -/
theorem onTable_ensures {α : Type} {change : Table.Store α} {done : α → Heap → Prop}
    (hFailed : failed h) (hDone : ∀ t, h.object? r = some (.table t) → ∀ a t',
      change.run t = .ok a t' → done a (h.withObject r (.table t'))) :
    HostM.Ensures (onTable r change) h done failed := by
  unfold onTable
  refine HostM.Ensures.bind (table_ensures hFailed fun t hTable => ?_)
  cases hRun : change t with
  | ok a t' => exact hDone t hTable a t' hRun
  | error e t' => exact trivial

/-- The heap with one object more. -/
def withNew (h : Heap) (o : Object) : Heap := { h with objects := h.objects.push ⟨.white, o⟩ }

/-- A new object gets the next handle, as long as there are handles. Memory is refused otherwise. -/
theorem alloc_run (o : Object) (h : Heap) : (alloc o).run h =
    if Limits.handles ≤ h.objects.size then .error (.refused .outOfMemory) h
    else .ok ⟨UInt32.ofNat h.objects.size⟩ (h.withNew o) := by
  by_cases hFull : Limits.handles ≤ h.objects.size
  · simp [alloc, hFull]
  · simp only [alloc, EStateM.run_bind, run_getThe, hFull, if_false]
    rfl

/-- A new object is behind the next handle, and the others are where they were. The handle has to
fit, or it would name an old one. -/
theorem object?_withNew (hRoom : h.objects.size < Limits.handles) (o : Object) (q : Handle) :
    (h.withNew o).object? q =
      if q = ⟨UInt32.ofNat h.objects.size⟩ then some o else h.object? q := by
  have hIndex : (UInt32.ofNat h.objects.size).toNat = h.objects.size :=
    UInt32.toNat_ofNat_of_lt' hRoom
  simp only [object?, withNew, Array.getElem?_push]
  by_cases hEq : q = ⟨UInt32.ofNat h.objects.size⟩
  · simp [hEq, hIndex]
  · have hOther : q.index.toNat ≠ h.objects.size :=
      fun hSame => hEq (Handle.eq_of_toNat_eq (hSame.trans hIndex.symm))
    simp [hEq, hOther]

/-- The handle of a new object named nothing before. -/
theorem object?_next (hRoom : h.objects.size < Limits.handles) :
    h.object? ⟨UInt32.ofNat h.objects.size⟩ = none := by
  simp [object?, UInt32.toNat_ofNat_of_lt' hRoom]

/-! ### Strings -/

/-- Strings are kept under their contents. -/
def Interned (h : Heap) : Prop := ∀ (b : Bytes) (s : Str), h.strings[b]? = some s → s.bytes = b

/-- A string is the one that the heap makes of its contents, if it is short. -/
def Canonical (h : Heap) (s : Str) : Prop := s.isShort = true → h.strings[s.bytes]? = some s

/-- Whether the strings of a heap are kept once each depends on the strings only. -/
theorem Interned.congr (hInterned : h.Interned) (hStrings : h'.strings = h.strings) :
    h'.Interned := by
  unfold Interned
  rw [hStrings]
  exact hInterned

theorem canonical_congr (hStrings : h'.strings = h.strings) (s : Str) :
    h'.Canonical s ↔ h.Canonical s := by
  unfold Canonical
  rw [hStrings]

/-- A string that is equal to one of the heap's own is its own. For short strings they are one and
the same. -/
theorem Canonical.of_equal {s q : Str} (hs : h.Canonical s) (hEqual : s.equal q = true) :
    h.Canonical q := by
  rcases (Str.equal_iff s q).mp hEqual with rfl | ⟨hLong, hBytes⟩
  · exact hs
  · intro hShort
    rw [← Str.isShort_congr hBytes, hLong] at hShort
    cases hShort

/-- Among the strings that a heap makes, equality is equality of contents. For short ones this rests
on the table of strings, which keeps one of each. -/
theorem Canonical.equal_iff {s q : Str} (hs : h.Canonical s) (hq : h.Canonical q) :
    s.equal q = true ↔ s.bytes = q.bytes := by
  constructor
  · exact Str.bytes_eq_of_equal
  · intro hBytes
    rw [Str.equal_iff]
    cases hShort : s.isShort with
    | false => exact Or.inr ⟨rfl, hBytes⟩
    | true =>
        have hFirst := hs hShort
        rw [hBytes, hq (Str.isShort_congr hBytes ▸ hShort), Option.some.injEq] at hFirst
        exact Or.inl hFirst.symm

/-- Heaps of which one may have more strings. -/
structure Grown (h h' : Heap) : Prop where
  objects : h'.objects = h.objects
  keys : h'.keys = h.keys
  strings : ∀ (b : Bytes) (s : Str), h.strings[b]? = some s → h'.strings[b]? = some s
  interned : h'.Interned

theorem Grown.canonical (hGrown : h.Grown h') {s : Str} (hs : h.Canonical s) : h'.Canonical s :=
  fun hShort => hGrown.strings _ _ (hs hShort)

/-- The string that a heap makes next. -/
def nextStr (h : Heap) (bytes : Bytes) : Str := ⟨h.serial, h.number, bytes⟩

/-- The heap after it made a string that it does not keep. -/
def advanced (h : Heap) : Heap := { h with serial := h.serial + 1 }

/-- The heap after it made a string and kept it. -/
def withStr (h : Heap) (bytes : Bytes) : Heap :=
  { h.advanced with strings := h.strings.insert bytes (h.nextStr bytes) }

/-- Making a string finds a short one that was made before. A long one is new each time and is not
kept. -/
theorem newStr_run (bytes : Bytes) (h : Heap) : (newStr bytes).run h =
    if Limits.shortLength < bytes.length then .ok (h.nextStr bytes) h.advanced
    else match h.strings[bytes]? with
      | some s => .ok s h
      | none => .ok (h.nextStr bytes) (h.withStr bytes) := by
  unfold newStr
  split
  next => rfl
  next =>
    rw [EStateM.run_bind, run_getThe]
    dsimp only
    cases h.strings[bytes]? <;> rfl

/-- A string that is new to the heap makes it grow. The bytes must not be there yet, or the string
made before would be lost. -/
theorem grown_withStr (hInterned : h.Interned) {bytes : Bytes} (hNew : h.strings[bytes]? = none) :
    h.Grown (h.withStr bytes) := by
  refine ⟨rfl, rfl, fun b s hs => ?_, fun b s hs => ?_⟩
  · rw [withStr, Std.HashMap.getElem?_insert]
    split
    next hEq =>
      rw [beq_iff_eq] at hEq
      rw [← hEq, hNew] at hs
      cases hs
    next => exact hs
  · rw [withStr, Std.HashMap.getElem?_insert] at hs
    split at hs
    next hEq =>
      cases hs
      exact beq_iff_eq.mp hEq
    next => exact hInterned b s hs

/-- Making a string gives the one string of its contents if they are short. Making a string is never
refused. -/
theorem newStr_cases (hInterned : h.Interned) (bytes : Bytes) :
    ∃ s h', (newStr bytes).run h = .ok s h' ∧ s.bytes = bytes ∧ h'.Canonical s ∧ h.Grown h' := by
  rw [newStr_run]
  split
  next hLong =>
    refine ⟨_, _, rfl, rfl, fun hShort => ?_, rfl, rfl, fun _ _ hs => hs, hInterned⟩
    exact absurd hLong (Nat.not_lt.mpr (of_decide_eq_true hShort))
  next =>
    cases hFound : h.strings[bytes]? with
    | some s =>
        have hBytes := hInterned bytes s hFound
        exact ⟨s, h, rfl, hBytes, fun _ => hBytes ▸ hFound, rfl, rfl, fun _ _ hs => hs, hInterned⟩
    | none =>
        refine ⟨_, _, rfl, rfl, fun _ => ?_, grown_withStr hInterned hFound⟩
        exact Std.HashMap.getElem?_insert_self

/-- The heaps that a program may come to hold: new ones, and those in which a string was made or
anything but the strings was changed. -/
inductive Reached : Heap → Prop where
  | new (number : Nat) : Reached { number }
  | made {h h' : Heap} {bytes : Bytes} {s : Str} (prior : Reached h)
      (hRun : (newStr bytes).run h = .ok s h') : Reached h'
  | changed {h h' : Heap} (prior : Reached h) (hStrings : h'.strings = h.strings) : Reached h'

/-- Every heap that is reached keeps its short strings once each. What is done to its objects and
keys on the way does not matter. -/
theorem Reached.interned (hReached : h.Reached) : h.Interned := by
  induction hReached with
  | new number => exact fun b s hs => by simp at hs
  | @made h h' bytes s prior hRun ih =>
      obtain ⟨s', h₁, hNew, _, _, hGrown⟩ := newStr_cases ih bytes
      rw [hRun] at hNew
      cases hNew
      exact hGrown.interned
  | changed prior hStrings ih => exact ih.congr hStrings

/-- Making a string changes no object. -/
theorem newStr_objects (bytes : Bytes) (h : Heap) :
    ∃ s h', (newStr bytes).run h = .ok s h' ∧ h'.objects = h.objects ∧
      h'.grayAgain = h.grayAgain := by
  rw [newStr_run]
  split
  next => exact ⟨_, _, rfl, rfl, rfl⟩
  next => cases h.strings[bytes]? <;> exact ⟨_, _, rfl, rfl, rfl⟩

/-- Making a string touches no object and no key. -/
theorem newStr_keeps {bytes : Bytes} {s : Str} (hRun : (newStr bytes).run h = .ok s h') :
    h'.objects = h.objects ∧ h'.keys = h.keys := by
  rw [newStr_run] at hRun
  split at hRun
  next =>
    cases hRun
    exact ⟨rfl, rfl⟩
  next =>
    cases hFound : h.strings[bytes]? with
    | some q =>
        rw [hFound] at hRun
        cases hRun
        exact ⟨rfl, rfl⟩
    | none =>
        rw [hFound] at hRun
        cases hRun
        exact ⟨rfl, rfl⟩

/-- The heap with one registered key more. -/
def withKey (h : Heap) (s : Str) : Heap := { h with keys := h.keys.push s }

/-- A key gets the next number after its string was made. When there are no numbers left no string
is made either. -/
theorem registerKey_run {s : Str} {bytes : Bytes} (hRun : (newStr bytes).run h = .ok s h') :
    (registerKey bytes).run h =
      if Limits.handles ≤ h.keys.size then .error (.refused .outOfMemory) h
      else .ok (UInt32.ofNat h.keys.size) (h'.withKey s) := by
  by_cases hFull : Limits.handles ≤ h.keys.size
  · simp [registerKey, hFull]
  · simp only [registerKey, EStateM.run_bind, run_getThe, hFull, if_false, hRun]
    rfl

/-- A new key is behind the next number, and the others are where they were. -/
theorem key?_withKey (hRoom : h.keys.size < Limits.handles) (s : Str) (id : UInt32) :
    (h.withKey s).key? id = if id = UInt32.ofNat h.keys.size then some s else h.key? id := by
  have hIndex : (UInt32.ofNat h.keys.size).toNat = h.keys.size :=
    UInt32.toNat_ofNat_of_lt' hRoom
  simp only [key?, withKey, Array.getElem?_push]
  by_cases hEq : id = UInt32.ofNat h.keys.size
  · simp [hEq, hIndex]
  · have hOther : id.toNat ≠ h.keys.size :=
      fun hSame => hEq (UInt32.toNat_inj.mp (hSame.trans hIndex.symm))
    simp [hEq, hOther]

/-- A registered key is found under its id, next to those registered before. Nothing was registered
under the new id before, and the string of the key is one of the heap's own. -/
theorem registerKey_ensures {done : UInt32 → Heap → Prop} (hInterned : h.Interned) (bytes : Bytes)
    (hDone : ∀ (id : UInt32) (s : Str) (h' : Heap), s.bytes = bytes → h'.Canonical s →
      h.Grown h' → h'.key? id = none →
      (∀ q, (h'.withKey s).key? q = if q = id then some s else h'.key? q) →
        done id (h'.withKey s)) :
    HostM.Ensures (registerKey bytes) h done failed := by
  obtain ⟨s, h', hRun, hBytes, hCanonical, hGrown⟩ := newStr_cases hInterned bytes
  unfold HostM.Ensures
  rw [registerKey_run hRun, ← hGrown.keys]
  by_cases hFull : Limits.handles ≤ h'.keys.size
  · rw [if_pos hFull]
    trivial
  · rw [if_neg hFull]
    have hRoom : h'.keys.size < Limits.handles := Nat.lt_of_not_le hFull
    apply hDone _ s h' hBytes hCanonical hGrown
    · simp [key?, UInt32.toNat_ofNat_of_lt' hRoom]
    · exact key?_withKey hRoom s

end Heap

/-- A string is made on behalf of a location as the heap makes it. -/
theorem Strings.make_cases {j : Journal Heap} (hInterned : j.host.Interned) (loc : Location)
    (bytes : Bytes) (config : Config) :
    ∃ s h, make loc bytes config j = .ok s { j with host := h } ∧ s.bytes = bytes ∧
      h.Canonical s ∧ j.host.Grown h := by
  obtain ⟨s, h, hRun, hMade⟩ := Heap.newStr_cases hInterned bytes
  refine ⟨s, h, ?_, hMade⟩
  rw [make, Run.host_run, hRun]

end TaggedRuntime
