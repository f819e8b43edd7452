import TaggedRuntime.Host.Basic
import TaggedRuntime.Proofs.Abi.FlatValue

/-! The flat and the tagged view of a value. Each is made from the other without loss, and every
check of the runtime answers the same on both. -/

namespace TaggedRuntime

/-- Representations that the runtime cannot tell apart. -/
structure TaggedValue.Agree [TaggedValue V Obj] [TaggedValue W Obj] (v : V) (w : W) : Prop where
  isFalse : TaggedValue.isFalse v = TaggedValue.isFalse w
  isNil : TaggedValue.isNil v = TaggedValue.isNil w
  isTrue : TaggedValue.isTrue v = TaggedValue.isTrue w
  userdata? : TaggedValue.userdata? v = TaggedValue.userdata? w

namespace TaggedValue.Agree

variable {V W X Obj : Type} [TaggedValue V Obj] [TaggedValue W Obj] [TaggedValue X Obj]
  {v : V} {w : W} {x : X}

/-- Agreement passes through a representation in the middle, which need not be of the same type as
the ends. -/
theorem trans (hFirst : Agree v w) (hSecond : Agree w x) : Agree v x :=
  ⟨hFirst.isFalse.trans hSecond.isFalse, hFirst.isNil.trans hSecond.isNil,
    hFirst.isTrue.trans hSecond.isTrue, hFirst.userdata?.trans hSecond.userdata?⟩

/-- Representations that agree are true in a condition together. Only false and the nils are not. -/
theorem isTruthy (hAgree : Agree v w) : TaggedRuntime.isTruthy v = TaggedRuntime.isTruthy w := by
  unfold TaggedRuntime.isTruthy
  rw [hAgree.isFalse, hAgree.isNil]

theorem boolValue (hAgree : Agree v w) :
    TaggedRuntime.boolValue v = TaggedRuntime.boolValue w := hAgree.isTrue

/-- Representations that agree are records of the same table together, on every host. -/
theorem isRecord {σ : Type} [HeapManager σ Obj] [DecidableEq Obj] (hAgree : Agree v w)
    (expected : Obj) :
    (TaggedRuntime.isRecord v expected : HostM σ Bool) = TaggedRuntime.isRecord w expected := by
  unfold TaggedRuntime.isRecord
  rw [hAgree.userdata?]

end TaggedValue.Agree

/-- The same value, but for the identity of a string that is not kept. -/
def Value.Alike (kept : Str → Prop) : Value → Value → Prop
  | .str s, .str q => q.bytes = s.bytes ∧ (kept s → q = s)
  | a, b => b = a

/-- The fewer strings have to be kept, the more values are alike. -/
theorem Value.Alike.mono {kept kept' : Str → Prop} {a b : Value} (hAlike : a.Alike kept b)
    (hKept : ∀ s, a = .str s → kept' s → kept s) : a.Alike kept' b := by
  cases a with
  | str s =>
      cases b with
      | str q => exact ⟨hAlike.1, fun hs => hAlike.2 (hKept s rfl hs)⟩
      | _ => cases hAlike
  | _ => exact hAlike

namespace FlatValue

variable {h h' : Heap} {v : FlatValue} {a b : Value}

/-- The flat form of a value cannot be told apart from it by the runtime. Integers, floats and
strings are alike to it: none of them is a nil, a truth value or a userdata. -/
theorem agree_of_ofValue? (hFlat : ofValue? a = some v) : TaggedValue.Agree v a := by
  cases a with
  | bool b =>
      cases hFlat
      cases b <;> exact ⟨rfl, rfl, rfl, rfl⟩
  | str s =>
      obtain ⟨_, hFlat⟩ := Option.ite_none_right_eq_some.mp hFlat
      cases hFlat
      exact ⟨rfl, rfl, rfl, rfl⟩
  | userdata object =>
      cases hFlat
      refine ⟨rfl, rfl, rfl, ?_⟩
      change some (Handle.mk object.index.toUInt64.toUInt32) = some object
      rw [UInt32.toUInt32_toUInt64]
  | _ =>
      cases hFlat
      exact ⟨rfl, rfl, rfl, rfl⟩

@[simp]
theorem canonical_tag (v : FlatValue) : v.canonical.tag = v.tag := by
  unfold canonical
  repeat' split
  all_goals rfl

/-- A truth value has one of two canonical forms. All words but zero stand for true. -/
theorem canonical_of_bool (hTag : v.tag = tagBool) :
    v.canonical = { tag := tagBool, bits := if v.bits = 0 then 0 else 1 } := by
  unfold canonical
  rw [if_pos hTag, hTag]

theorem handle_canonical (hTag : v.tag = tagUserdata) : v.canonical.handle = v.handle := by
  have hForm : v.canonical = { tag := tagUserdata, bits := v.bits.toUInt32.toUInt64 } := by
    unfold canonical
    rw [hTag]
    rfl
  rw [hForm, handle, UInt32.toUInt32_toUInt64, handle]

/-- The word of a truth value is zero in canonical form exactly if it was zero. -/
theorem bits_canonical (hTag : v.tag = tagBool) : v.canonical.bits = 0 ↔ v.bits = 0 := by
  rw [canonical_of_bool hTag]
  by_cases hBits : v.bits = 0 <;> simp [hBits]

/-- What the canonical form leaves out is not looked at. Only truth values and userdata have bits
that count, and these are kept. -/
theorem agree_canonical (v : FlatValue) : TaggedValue.Agree v v.canonical where
  isFalse := by
    change (decide (v.tag = tagBool) && decide (v.bits = 0)) =
      (decide (v.canonical.tag = tagBool) && decide (v.canonical.bits = 0))
    by_cases hTag : v.tag = tagBool
    · simp only [canonical_tag, bits_canonical hTag]
    · simp [hTag]
  isNil := by
    change (decide (v.tag = tagNil) || decide (v.tag = tagAbsent)) =
      (decide (v.canonical.tag = tagNil) || decide (v.canonical.tag = tagAbsent))
    rw [canonical_tag]
  isTrue := by
    change (decide (v.tag = tagBool) && decide (v.bits ≠ 0)) =
      (decide (v.canonical.tag = tagBool) && decide (v.canonical.bits ≠ 0))
    by_cases hTag : v.tag = tagBool
    · simp only [canonical_tag, ne_eq, bits_canonical hTag]
    · simp [hTag]
  userdata? := by
    change (if v.tag = tagUserdata then some v.handle else none) =
      if v.canonical.tag = tagUserdata then some v.canonical.handle else none
    rw [canonical_tag]
    by_cases hTag : v.tag = tagUserdata
    · rw [handle_canonical hTag]
    · rw [if_neg hTag, if_neg hTag]

/-- Values that are alike have one flat form, which has no room for the identity of a string. -/
theorem ofValue?_congr {kept : Str → Prop} (hAlike : a.Alike kept b) : ofValue? b = ofValue? a := by
  cases a with
  | str s =>
      cases b with
      | str q =>
          simp only [ofValue?, Str.length, hAlike.1]
          rfl
      | _ => cases hAlike
  | _ =>
      cases hAlike
      rfl

/-- Every value has a flat form but a string whose length does not fit into the length field. -/
theorem ofValue?_isSome (hFits : ∀ s, a = .str s → s.length < twoPow 32) :
    ∃ v, ofValue? a = some v := by
  cases a with
  | str s => exact ⟨_, if_pos (hFits s rfl)⟩
  | _ => exact ⟨_, rfl⟩

/-- A flat form has the value that it was made of. A string comes back as itself if it is short and
interned; otherwise it is one of the same contents. -/
theorem toValue_of_ofValue? (hInterned : h.Interned) (hFlat : ofValue? a = some v) :
    ∃ b h', v.toValue.run h = .ok b h' ∧
      a.Alike (fun s => s.isShort = true ∧ h.strings[s.bytes]? = some s) b := by
  cases a with
  | nil =>
      cases hFlat
      exact ⟨_, h, rfl, rfl⟩
  | absent =>
      cases hFlat
      exact ⟨_, h, rfl, rfl⟩
  | bool b =>
      cases hFlat
      cases b <;> exact ⟨_, h, rfl, rfl⟩
  | int n =>
      cases hFlat
      refine ⟨_, h, rfl, ?_⟩
      exact congrArg Value.int (Int64.toInt64_toUInt64 n)
  | float x =>
      cases hFlat
      exact ⟨_, h, rfl, rfl⟩
  | str s =>
      obtain ⟨hFits, hFlat⟩ := Option.ite_none_right_eq_some.mp hFlat
      cases hFlat
      have hText : text { tag := tagString, length := UInt32.ofNat s.length, data := s.bytes } =
          s.bytes := by
        unfold text
        rw [UInt32.toNat_ofNat_of_lt' hFits]
        exact List.take_length
      obtain ⟨q, h', hRun, hBytes, hCanonical, hGrown⟩ := Heap.newStr_cases hInterned s.bytes
      refine ⟨.str q, h', ?_, hBytes, fun ⟨hShort, hKept⟩ => ?_⟩
      · change (Heap.newStr _ >>= fun q => pure (Value.str q)).run h = _
        rw [EStateM.run_bind, hText, hRun]
        rfl
      · have hFound := hCanonical (Str.isShort_congr hBytes ▸ hShort)
        rw [hBytes, hGrown.strings _ _ hKept] at hFound
        exact (Option.some.inj hFound).symm
  | table object =>
      cases hFlat
      refine ⟨_, h, rfl, ?_⟩
      exact congrArg (fun i => Value.table ⟨i⟩) (UInt32.toUInt32_toUInt64 object.index)
  | userdata object =>
      cases hFlat
      refine ⟨_, h, rfl, ?_⟩
      exact congrArg (fun i => Value.userdata ⟨i⟩) (UInt32.toUInt32_toUInt64 object.index)

/-- The checks of the runtime have the same answers on both views of a value. -/
structure SameAnswers (v : FlatValue) (a : Value) : Prop where
  isFalse : TaggedValue.isFalse v = a.isFalse
  isNil : TaggedValue.isNil v = a.isNil
  isTrue : TaggedValue.isTrue v = a.isTrue
  isTruthy : TaggedRuntime.isTruthy v = TaggedRuntime.isTruthy a
  boolValue : TaggedRuntime.boolValue v = TaggedRuntime.boolValue a
  userdata? : TaggedValue.userdata? v = a.userdata?
  isRecord : ∀ (h : Heap) (expected : Handle),
    (TaggedRuntime.isRecord v expected).run h = (TaggedRuntime.isRecord a expected).run h

/-- Values that agree give the same answers to all seven questions that the runtime asks of a value.
-/
theorem sameAnswers_of_agree (hAgree : TaggedValue.Agree v a) : v.SameAnswers a where
  isFalse := hAgree.isFalse
  isNil := hAgree.isNil
  isTrue := hAgree.isTrue
  isTruthy := hAgree.isTruthy
  boolValue := hAgree.boolValue
  userdata? := hAgree.userdata?
  isRecord h expected := by rw [hAgree.isRecord expected]

/-- A value has a flat form, unless it is too long a string, and is what the heap makes of it. A
flat value has a value exactly if its tag is known. The flat form of that value is made into the
same value again, and all checks answer the same on both. -/
theorem views_agree (hReached : h.Reached) :
    (∀ a : Value, (∀ s, a = .str s → s.length < twoPow 32) →
      ∃ v b h', ofValue? a = some v ∧ v.SameAnswers a ∧ v.toValue.run h = .ok b h' ∧
        a.Alike (fun s => s.isShort = true ∧ h.strings[s.bytes]? = some s) b) ∧
    ∀ v : FlatValue,
      (tagUserdata < v.tag → v.toValue.run h = .error (.fault (.unknownTag v.tag)) h) ∧
      (v.tag ≤ tagUserdata → ∃ a h' c, v.toValue.run h = .ok a h' ∧ v.SameAnswers a ∧
        ofValue? a = some c ∧ ∃ b h'', c.toValue.run h' = .ok b h'' ∧
          a.Alike (fun s => s.isShort = true) b ∧ ofValue? b = some c) := by
  refine ⟨fun a hFits => ?_, fun v => ⟨fun hTag => toValue_of_unknown hTag h, fun hTag => ?_⟩⟩
  · obtain ⟨v, hFlat⟩ := ofValue?_isSome hFits
    obtain ⟨b, h', hRun, hAlike⟩ := toValue_of_ofValue? hReached.interned hFlat
    exact ⟨v, b, h', hFlat, sameAnswers_of_agree (agree_of_ofValue? hFlat), hRun, hAlike⟩
  · rcases toValue_cases hReached.interned v with ⟨_, a, h', hMade⟩ | ⟨hUnknown, _⟩
    · have hFlat : ofValue? a = some v.canonical := hMade.decodes.1
      have hAgree := (agree_canonical v).trans (agree_of_ofValue? hFlat)
      obtain ⟨b, h'', hAgain, hAlike⟩ := toValue_of_ofValue? hMade.grown.interned hFlat
      refine ⟨a, h', v.canonical, hMade.run, sameAnswers_of_agree hAgree, hFlat, b, h'', hAgain,
        ?_, (ofValue?_congr hAlike).trans hFlat⟩
      exact hAlike.mono fun s hs hShort => ⟨hShort, hMade.canonical s hs hShort⟩
    · exact absurd hUnknown (UInt32.not_lt.mpr hTag)

/-- An interned string comes back as itself, a truth value of a large word is true, and the tag
behind the last one is refused. -/
theorem views_agree_interned : ∃ (h : Heap) (s : Str), h.Reached ∧ s.bytes = [97] ∧
    (∃ v h', ofValue? (.str s) = some v ∧ v.SameAnswers (.str s) ∧
      v.toValue.run h = .ok (.str s) h') ∧
    (∃ a h', (toValue { tag := tagBool, length := 3, bits := 256 }).run h = .ok a h' ∧
      a.isTrue = true ∧ ofValue? a = some { tag := tagBool, bits := 1 }) ∧
    (toValue { tag := 8 }).run h = .error (.fault (.unknownTag 8)) h := by
  obtain ⟨s, h, hRun, hBytes, hCanonical, _⟩ :=
    Heap.newStr_cases (Heap.Reached.new 0).interned [97]
  have hReached : h.Reached := .made (.new 0) hRun
  have hShort : s.isShort = true := by
    rw [Str.isShort, Str.length, hBytes]
    rfl
  obtain ⟨hValues, hFlats⟩ := views_agree hReached
  refine ⟨h, s, hReached, hBytes, ?_, ?_, (hFlats { tag := 8 }).1 (by decide)⟩
  · have hFits (q : Str) (hq : Value.str s = .str q) : q.length < twoPow 32 := by
      cases hq
      rw [Str.length, hBytes]
      decide
    obtain ⟨v, b, h', hFlat, hSame, hBack, hAlike⟩ := hValues (.str s) hFits
    cases b with
    | str q =>
        rw [hAlike.2 ⟨hShort, hCanonical hShort⟩] at hBack
        exact ⟨v, h', hFlat, hSame, hBack⟩
    | _ => cases hAlike
  · obtain ⟨a, h', c, hMade, hSame, _⟩ :=
      (hFlats { tag := tagBool, length := 3, bits := 256 }).2 (by decide)
    cases hMade
    exact ⟨_, _, rfl, hSame.isTrue.symm.trans rfl, rfl⟩

end FlatValue

end TaggedRuntime
