import TaggedRuntime.Abi.FlatValue
import TaggedRuntime.Proofs.Heap.Basic

/-! Flat values across the boundary and back. What the runtime makes of a flat
value it answers with in one canonical form. -/

namespace TaggedRuntime.FlatValue

/-- The form of a flat value in which nothing is left that does not count: a
truth value is zero or one, a string is as long as its bytes, and an object is
named by the lower half of its word. -/
def canonical (v : FlatValue) : FlatValue :=
  if v.tag = tagBool then { tag := v.tag, bits := if v.bits = 0 then 0 else 1 }
  else if v.tag = tagInt || v.tag = tagFloat then { tag := v.tag, bits := v.bits }
  else if v.tag = tagString then
    { tag := v.tag, length := UInt32.ofNat v.text.length, data := v.text }
  else if v.tag = tagTable || v.tag = tagUserdata then
    { tag := v.tag, bits := v.bits.toUInt32.toUInt64 }
  else { tag := v.tag }

/-- A value in its canonical form, nil exactly when the flat value is. -/
def Decodes (v : FlatValue) (a : Value) : Prop :=
  ofValue? a = some v.canonical ∧ a.isNil = TaggedValue.isNil v

/-- The text of a flat value is as long as its length field says at most, so it is short enough for
a string of the heap. -/
theorem text_length_lt (v : FlatValue) : v.text.length < twoPow 32 := by
  have hLength := v.length.toNat_lt
  have hTake : v.text.length ≤ v.length.toNat := List.length_take_le _ _
  exact Nat.lt_of_le_of_lt hTake hLength

/-- A flat value with the tag of strings decodes to any string of the same bytes. Which of several
equal strings it is does not matter to the boundary. -/
theorem decodes_str {v : FlatValue} {s : Str} (hTag : v.tag = tagString)
    (hBytes : s.bytes = v.text) : v.Decodes (.str s) := by
  have hLength : s.length = v.text.length := by
    rw [← hBytes]
    rfl
  have hFits : s.length < twoPow 32 := by
    rw [hLength]
    exact v.text_length_lt
  constructor
  · rw [ofValue?, if_pos hFits, hLength, hBytes]
    unfold canonical
    rw [hTag]
    rfl
  · change false = (decide (v.tag = tagNil) || decide (v.tag = tagAbsent))
    rw [hTag]
    rfl

/-- A value that a heap makes of a flat value, and the heap behind it. Only the string of the
value, if it is one, is new to the heap. -/
structure Made (v : FlatValue) (h : Heap) (a : Value) (h' : Heap) : Prop where
  run : v.toValue.run h = .ok a h'
  decodes : v.Decodes a
  grown : h.Grown h'
  canonical : ∀ s, a = .str s → h'.Canonical s

theorem Made.of_plain {h : Heap} {v : FlatValue} {a : Value} (hInterned : h.Interned)
    (hRun : v.toValue.run h = .ok a h) (hDecodes : v.Decodes a) (hPlain : ∀ s, a ≠ .str s) :
    v.Made h a h :=
  ⟨hRun, hDecodes, ⟨rfl, rfl, fun _ _ hs => hs, hInterned⟩, fun s hs => absurd hs (hPlain s)⟩

/-- A string is made of the bytes that the flat value points to. A short one is the one that the
heap has, or is added to it. -/
theorem made_str {h : Heap} {v : FlatValue} (hInterned : h.Interned) (hTag : v.tag = tagString) :
    ∃ s h', v.Made h (.str s) h' := by
  obtain ⟨s, h', hRun, hBytes, hCanonical, hGrown⟩ := Heap.newStr_cases hInterned v.text
  refine ⟨s, h', ?_, decodes_str hTag hBytes, hGrown, fun q hq => ?_⟩
  · unfold toValue
    rw [hTag]
    change (Heap.newStr v.text >>= fun s => pure (Value.str s)).run h = _
    rw [EStateM.run_bind, hRun]
    rfl
  · cases hq
    exact hCanonical

/-- A tag is one of the eight that are known, or it is past the last of them. -/
theorem tag_cases (tag : UInt32) : tag = tagNil ∨ tag = tagAbsent ∨ tag = tagBool ∨
    tag = tagInt ∨ tag = tagFloat ∨ tag = tagString ∨ tag = tagTable ∨ tag = tagUserdata ∨
    tagUserdata < tag := by
  simp only [tagNil, tagAbsent, tagBool, tagInt, tagFloat, tagString, tagTable, tagUserdata,
    ← UInt32.toNat_inj, UInt32.lt_iff_toNat_lt, UInt32.reduceToNat]
  omega

/-- A tag past the last one is a fault, and nothing is made. -/
theorem toValue_of_unknown {v : FlatValue} (hTag : tagUserdata < v.tag) (h : Heap) :
    v.toValue.run h = .error (.fault (.unknownTag v.tag)) h := by
  have hOther (tag : UInt32) (hKnown : tag ≤ tagUserdata) : v.tag ≠ tag :=
    fun hEq => UInt32.not_lt.mpr hKnown (hEq ▸ hTag)
  unfold toValue
  rw [if_neg (hOther _ (by decide)), if_neg (hOther _ (by decide)), if_neg (hOther _ (by decide)),
    if_neg (hOther _ (by decide)), if_neg (hOther _ (by decide)), if_neg (hOther _ (by decide)),
    if_neg (hOther _ (by decide)), if_neg (hOther _ (by decide))]
  rfl

/-- Exactly the known tags have a value. The cases are those of the tag, and the greatest known one
is that of userdata. -/
theorem toValue_cases {h : Heap} (hInterned : h.Interned) (v : FlatValue) :
    (v.tag ≤ tagUserdata ∧ ∃ a h', v.Made h a h') ∨
    tagUserdata < v.tag ∧ v.toValue.run h = .error (.fault (.unknownTag v.tag)) h := by
  by_cases hUnknown : tagUserdata < v.tag
  · exact Or.inr ⟨hUnknown, toValue_of_unknown hUnknown h⟩
  refine Or.inl ⟨UInt32.not_lt.mp hUnknown, ?_⟩
  obtain ⟨tag, length, bits, data⟩ := v
  rcases tag_cases tag with rfl | rfl | rfl | rfl | rfl | rfl | rfl | rfl | hTag
  · exact ⟨.nil, h, .of_plain hInterned rfl ⟨rfl, rfl⟩ nofun⟩
  · exact ⟨.absent, h, .of_plain hInterned rfl ⟨rfl, rfl⟩ nofun⟩
  · refine ⟨.bool (bits ≠ 0), h, .of_plain hInterned rfl ⟨?_, rfl⟩ nofun⟩
    by_cases hBits : bits = 0 <;> simp [ofValue?, canonical, hBits]
  · refine ⟨.int bits.toInt64, h, .of_plain hInterned rfl ⟨?_, rfl⟩ nofun⟩
    simp [ofValue?, canonical, tagInt, tagBool]
  · exact ⟨.float ⟨bits⟩, h, .of_plain hInterned rfl ⟨rfl, rfl⟩ nofun⟩
  · obtain ⟨s, h', hMade⟩ := made_str (v := ⟨tagString, length, bits, data⟩) hInterned rfl
    exact ⟨.str s, h', hMade⟩
  · exact ⟨.table ⟨bits.toUInt32⟩, h, .of_plain hInterned rfl ⟨rfl, rfl⟩ nofun⟩
  · exact ⟨.userdata ⟨bits.toUInt32⟩, h, .of_plain hInterned rfl ⟨rfl, rfl⟩ nofun⟩
  · exact absurd hTag hUnknown

/-- Making a value of a flat value, as it is used by the operations: it gives a value that decodes
from it in a heap that has grown by at most one string, or it fails and changes nothing. -/
theorem toValue_ensures {h : Heap} {done : Value → Heap → Prop} {failed : Heap → Prop}
    (hInterned : h.Interned) (v : FlatValue) (hFailed : failed h)
    (hDone : ∀ a h', v.Decodes a → h.Grown h' → done a h') :
    HostM.Ensures v.toValue h done failed := by
  rcases toValue_cases hInterned v with ⟨_, a, h', hMade⟩ | ⟨_, hRun⟩
  · exact HostM.Ensures.of_ok hMade.run (hDone a h' hMade.decodes hMade.grown)
  · unfold HostM.Ensures
    rw [hRun]
    exact hFailed

/-- Making the value of a flat value changes no object. It may change the strings of the heap, so
this is what is left to say for those who look at objects. -/
theorem toValue_objects {h : Heap} {done : Value → Heap → Prop} {failed : Heap → Prop}
    (v : FlatValue) (hFailed : failed h)
    (hDone : ∀ a h', h'.objects = h.objects → h'.grayAgain = h.grayAgain → done a h') :
    HostM.Ensures v.toValue h done failed := by
  have hSame (a : Value) : HostM.Ensures (pure a) h done failed :=
    HostM.Ensures.pure (hDone a h rfl rfl)
  unfold toValue
  iterate 5
    split
    next => exact hSame _
  split
  next =>
    obtain ⟨s, h', hRun, hObjects, hGray⟩ := Heap.newStr_objects v.text h
    exact HostM.Ensures.bind (HostM.Ensures.of_ok hRun (hDone (.str s) h' hObjects hGray))
  iterate 2
    split
    next => exact hSame _
  exact hFailed

/-- A value that is one of the nils has a flat form that is one. -/
theorem ofValue?_of_isNil {a : Value} (hNil : a.isNil = true) :
    ∃ v, ofValue? a = some v ∧ TaggedValue.isNil v = true := by
  cases a with
  | nil => exact ⟨_, rfl, rfl⟩
  | absent => exact ⟨_, rfl, rfl⟩
  | _ => cases hNil

end TaggedRuntime.FlatValue
