import TaggedRuntime.Proofs.Binary64.Integral
import TaggedRuntime.Proofs.Heap.Basic
import TaggedRuntime.Proofs.Table.Operation
import TaggedRuntime.Proofs.Table.History

/-! Equality of values against the keys that they are looked up as. Equality
passes through the nearest float and keys through the 64-bit integer that a
float is; both come to the numbers themselves. -/

namespace TaggedRuntime

namespace Key

/-- The key of a float that is a number. -/
def ofFloat (x : Binary64) : Key :=
  match x.toInt64? with
  | some n => .int n
  | none => .float x

variable {x y : Binary64}

/-- A float that is a number has a key: an integer if it is one of 64 bits, and itself otherwise. -/
theorem ofValue_float (hNumber : x.isNaN = false) : ofValue (.float x) = .ok (ofFloat x) := by
  simp only [ofValue, ofFloat, hNumber, Bool.false_eq_true, if_false]
  cases x.toInt64? <;> rfl

/-- An integer and a float are one key exactly when they are equal as values. The float becomes an
integer key if it is one, and otherwise both sides are false. -/
theorem same_int_ofFloat_iff (hNumber : x.isNaN = false) (n : Int64) :
    (Key.int n).same (ofFloat x) = true ↔ Value.intEqFloat n x = true := by
  unfold ofFloat Value.intEqFloat
  cases hInt : x.toInt64? with
  | none => simp [same]
  | some m =>
      simp only [same, decide_eq_true_eq, Bool.and_eq_true, Option.some.injEq]
      constructor
      · rintro rfl
        exact ⟨Binary64.eq_ofInt_of_toInt64? hNumber hInt, rfl⟩
      · exact fun h => h.2.symm

/-- Floats are one key exactly when they are one number. Those that are no 64-bit integers are no
zeros, so that each of their numbers has one word. -/
theorem same_ofFloat_iff (hx : x.isNaN = false) (hy : y.isNaN = false) :
    (ofFloat x).same (ofFloat y) = true ↔ x.eq y = true := by
  rw [Binary64.eq_iff hx hy]
  unfold ofFloat
  cases hm : x.toInt64? with
  | some m =>
      have hUnits := (Binary64.toInt64?_eq_some_iff hx).mp hm
      rw [hUnits, eq_comm (b := y.units), ← Binary64.toInt64?_eq_some_iff hy]
      cases hn : y.toInt64? with
      | some n => simp [same, eq_comm]
      | none => simp [same]
  | none =>
      cases hn : y.toInt64? with
      | some n =>
          rw [(Binary64.toInt64?_eq_some_iff hy).mp hn, ← Binary64.toInt64?_eq_some_iff hx, hm]
          simp [same]
      | none =>
          simp only [same, decide_eq_true_eq]
          constructor
          · exact congrArg Binary64.units
          · apply Binary64.eq_of_units hx hy
            intro hZero
            have hInt := (Binary64.toInt64?_eq_some_iff hx (n := 0)).mpr
              (by rw [hZero, Int64.toInt_zero, Int.zero_mul])
            rw [hm] at hInt
            cases hInt

end Key

namespace Value

variable {h : Heap} {a b c : Value}

/-- A value that a table can hold something under: neither a nil nor a NaN, and an object under
the tag of the kind that the heap has it as. -/
structure Indexes (h : Heap) (v : Value) : Prop where
  notNil : v.isNil = false
  notNaN : ∀ x, v = .float x → x.isNaN = false
  namesTable : ∀ r, v = .table r → ∃ t, h.object? r = some (.table t)
  namesUserdata : ∀ r, v = .userdata r → ∃ u, h.object? r = some (.userdata u)

/-- The key of a value that is one. -/
def key : Value → Key
  | .nil => .vacant
  | .absent => .vacant
  | .bool b => .bool b
  | .int n => .int n
  | .float x => .ofFloat x
  | .str s => .str s
  | .table r => .object r
  | .userdata r => .object r

theorem Indexes.ofValue_eq (ha : a.Indexes h) : Key.ofValue a = .ok a.key := by
  cases a with
  | nil => cases ha.notNil
  | absent => cases ha.notNil
  | float x => exact Key.ofValue_float (ha.notNaN x rfl)
  | _ => rfl

theorem rawEq_comm (a b : Value) : a.rawEq b = b.rawEq a := by
  have hStr (s t : Str) : s.equal t = t.equal s :=
    Bool.eq_iff_iff.mpr ⟨Str.equal_symm, Str.equal_symm⟩
  have hFloat (x y : Binary64) : x.eq y = y.eq x := by
    simp only [Binary64.eq, Bool.and_comm (!x.isNaN), eq_comm (a := x.units)]
  cases a <;> cases b <;> simp [rawEq, isNil, eq_comm, hStr, hFloat]

/-- A handle is under one tag. -/
theorem Indexes.ne_handle {q r : Handle} (hTable : (table q).Indexes h)
    (hUserdata : (userdata r).Indexes h) : q ≠ r := by
  rintro rfl
  obtain ⟨t, ht⟩ := hTable.namesTable q rfl
  obtain ⟨u, hu⟩ := hUserdata.namesUserdata q rfl
  rw [ht] at hu
  cases hu

/-- A float is the same key as another value exactly if they are equal. Only integers and other
floats can be. -/
theorem Indexes.same_ofFloat_iff {x : Binary64} (ha : (float x).Indexes h) (hb : b.Indexes h) :
    (Key.ofFloat x).same b.key = true ↔ (float x).rawEq b = true := by
  have hNumber := ha.notNaN x rfl
  cases b with
  | int n =>
      rw [Key.same_comm]
      exact Key.same_int_ofFloat_iff hNumber n
  | float y => exact Key.same_ofFloat_iff hNumber (hb.notNaN y rfl)
  | _ =>
      simp only [Key.ofFloat, key, rawEq, isNil]
      cases x.toInt64? <;> simp [Key.same]

/-- Values are one key exactly when they are equal. There is one case for each kind of value, and
strings and objects have to be those of one heap. -/
theorem Indexes.same_key_iff (ha : a.Indexes h) (hb : b.Indexes h) :
    a.key.same b.key = true ↔ a.rawEq b = true := by
  have hSwap (x : Binary64) (hx : b = float x) :
      a.key.same b.key = true ↔ a.rawEq b = true := by
    subst hx
    rw [Key.same_comm, rawEq_comm]
    exact hb.same_ofFloat_iff ha
  cases a with
  | nil => cases ha.notNil
  | absent => cases ha.notNil
  | float x => exact ha.same_ofFloat_iff hb
  | table q =>
      cases b with
      | float x => exact hSwap x rfl
      | userdata r => simpa [key, rawEq, Key.same, isNil] using ha.ne_handle hb
      | _ => simp [key, rawEq, Key.same, isNil]
  | userdata q =>
      cases b with
      | float x => exact hSwap x rfl
      | table r => simpa [key, rawEq, Key.same, isNil] using (hb.ne_handle ha).symm
      | _ => simp [key, rawEq, Key.same, isNil]
  | _ =>
      cases b with
      | float x => exact hSwap x rfl
      | _ => simp [key, rawEq, Key.same, isNil]

/-- Equality of values that can be keys is sameness of their keys, so it is an equivalence, it
decides where the search for a key starts, and a store under a value is seen by the look-ups of
the values equal to it and by no others. -/
theorem keys_agree_with_rawEq (h : Heap) :
    (∀ a b : Value, a.Indexes h → b.Indexes h →
      ∃ k l, Key.ofValue a = .ok k ∧ Key.ofValue b = .ok l ∧
        (k.same l = true ↔ a.rawEq b = true) ∧
        (k.same l = true → ∀ t : Table, t.home k = t.home l) ∧
        ∀ (t t' : Table) (v : Value), t.Reachable → (Table.set a v).run t = .ok () t' →
          (t'.get b).nonNil? = if a.rawEq b then v.nonNil? else (t.get b).nonNil?) ∧
    Equivalence fun a b : {v : Value // v.Indexes h} => a.1.rawEq b.1 = true := by
  refine ⟨fun a b ha hb => ?_, fun a => ?_, fun {a b} hab => ?_, fun {a b c} hab hbc => ?_⟩
  · have hSame := ha.same_key_iff hb
    refine ⟨a.key, b.key, ha.ofValue_eq, hb.ofValue_eq, hSame, Table.home_eq_of_same,
      fun t t' v hReachable hRun => ?_⟩
    have hChange : (Table.Operation.set a v).change.run t = .ok () t' := hRun
    have hAfter := Table.Operation.after_of_ok hReachable.wellFormed hChange
    simp only [Table.Operation.write?, ha.ofValue_eq] at hAfter
    rw [Table.get_eq hb.ofValue_eq, Table.get_eq hb.ofValue_eq]
    refine (hAfter.entry b.key).trans (if_congr hSame rfl rfl)
  · rw [← a.2.same_key_iff a.2, Key.same_self_iff]
    exact Key.ofValue_ne_vacant a.2.ofValue_eq
  · rwa [rawEq_comm]
  · rw [← a.2.same_key_iff b.2] at hab
    rw [← b.2.same_key_iff c.2] at hbc
    rw [← a.2.same_key_iff c.2]
    exact Key.same_trans hab hbc

/-- The nearest float to an integer past `2 ^ 53` is another key, and the integer that the float
is finds what was stored under it. -/
theorem keys_agree_with_rawEq_wide :
    ∃ t', (Table.set (.float ⟨0x4340000000000000⟩) (.bool true)).run {} = .ok () t' ∧
      (t'.get (.int 0x20000000000000)).nonNil? = some (.bool true) ∧
      (t'.get (.int 0x20000000000001)).nonNil? = none := by
  have hFloat : (float ⟨0x4340000000000000⟩).Indexes {} :=
    ⟨rfl, by rintro _ ⟨⟩; decide, by rintro _ ⟨⟩, by rintro _ ⟨⟩⟩
  have hInt (n : Int64) : (int n).Indexes {} :=
    ⟨rfl, by rintro _ ⟨⟩, by rintro _ ⟨⟩, by rintro _ ⟨⟩⟩
  obtain ⟨_, _, _, _, _, _, hEqual⟩ :=
    (keys_agree_with_rawEq {}).1 _ _ hFloat (hInt 0x20000000000000)
  obtain ⟨_, _, _, _, _, _, hOther⟩ :=
    (keys_agree_with_rawEq {}).1 _ _ hFloat (hInt 0x20000000000001)
  have hKey : key (.float ⟨0x4340000000000000⟩) = .int 0x20000000000000 := by decide +kernel
  obtain ⟨t', hRun⟩ : ∃ t', (Table.set (.float ⟨0x4340000000000000⟩) (.bool true)).run {} =
      .ok () t' := by
    rw [Table.set_run, hFloat.ofValue_eq, hKey]
    exact ⟨_, rfl⟩
  refine ⟨t', hRun, ?_, ?_⟩
  · rw [hEqual {} t' (.bool true) (.new none) hRun, if_pos (by decide +kernel)]
    rfl
  · rw [hOther {} t' (.bool true) (.new none) hRun, if_neg (by decide +kernel)]
    rfl

end Value

end TaggedRuntime
