import TaggedRuntime.Proofs.Words
import TaggedRuntime.Table.Key

/-! Keys as names of entries. Being the same is symmetric and transitive, it
holds of every key that is not vacant, and keys that are the same start their
search at the same bucket. -/

namespace TaggedRuntime

namespace Str

/-- Whether a string is short depends on its contents. -/
theorem isShort_congr {a b : Str} (h : a.bytes = b.bytes) : a.isShort = b.isShort := by
  unfold isShort length
  rw [h]

/-- A short string equals only itself; a long one equals those of its contents. -/
theorem equal_iff (a b : Str) :
    a.equal b = true ↔ a = b ∨ (a.isShort = false ∧ a.bytes = b.bytes) := by
  have hHash (h : a.bytes = b.bytes) : a.hash = b.hash := by
    simp [hash, h]
  by_cases hBytes : a.bytes = b.bytes
  · simp [equal, hBytes, isShort_congr hBytes, hHash hBytes]
  · simp [equal, hBytes]

/-- Equal strings have the same contents, although short ones are compared by identity. -/
theorem bytes_eq_of_equal {a b : Str} (h : a.equal b = true) : a.bytes = b.bytes := by
  rcases (equal_iff a b).mp h with rfl | ⟨_, hBytes⟩
  · rfl
  · exact hBytes

@[simp] theorem equal_self (a : Str) : a.equal a = true := (equal_iff a a).mpr (Or.inl rfl)

/-- Equality of strings is symmetric. -/
theorem equal_symm {a b : Str} (h : a.equal b = true) : b.equal a = true := by
  have hShort := isShort_congr (bytes_eq_of_equal h)
  rcases (equal_iff a b).mp h with rfl | ⟨hLong, hBytes⟩
  · exact equal_self a
  · exact (equal_iff b a).mpr (Or.inr ⟨hShort ▸ hLong, hBytes.symm⟩)

/-- Equality of strings is transitive. Equal strings are both short or both long, so the two ways to
compare do not mix. -/
theorem equal_trans {a b c : Str} (hab : a.equal b = true) (hbc : b.equal c = true) :
    a.equal c = true := by
  rcases (equal_iff a b).mp hab with rfl | ⟨hLong, hBytes⟩
  · exact hbc
  · exact (equal_iff a c).mpr (Or.inr ⟨hLong, hBytes.trans (bytes_eq_of_equal hbc)⟩)

end Str

namespace Key

@[simp] theorem isVacant_iff (k : Key) : k.isVacant = true ↔ k = vacant := by
  cases k <;> simp [isVacant]

@[simp] theorem vacant_same (k : Key) : vacant.same k = false := by cases k <;> rfl

@[simp] theorem same_vacant (k : Key) : k.same vacant = false := by cases k <;> rfl

/-- Only the vacant key is not the same as itself. -/
theorem same_self_iff (k : Key) : k.same k = true ↔ k ≠ vacant := by
  cases k <;> simp [same]

/-- A key that is the same as any is not vacant. -/
theorem ne_vacant_of_same {k l : Key} (h : k.same l = true) : k ≠ vacant := by
  rintro rfl
  simp at h

/-- Being the same key is symmetric. -/
theorem same_symm {k l : Key} (h : k.same l = true) : l.same k = true := by
  cases k <;> cases l <;> simp_all [same]
  exact Str.equal_symm h

theorem same_comm (k l : Key) : k.same l = l.same k :=
  Bool.eq_iff_iff.mpr ⟨same_symm, same_symm⟩

/-- Being the same key is transitive. -/
theorem same_trans {k l m : Key} (hkl : k.same l = true) (hlm : l.same m = true) :
    k.same m = true := by
  cases k <;> cases l <;> cases m <;> simp_all [same]
  exact Str.equal_trans hkl hlm

/-- A test against one of two keys that are the same is a test against the other. -/
theorem same_congr {k l : Key} (h : k.same l = true) (m : Key) : k.same m = l.same m :=
  Bool.eq_iff_iff.mpr ⟨same_trans (same_symm h), same_trans h⟩

@[simp] theorem same_int_iff (k : Key) (n : Int64) : k.same (.int n) = true ↔ k = .int n := by
  cases k <;> simp [same]

/-- A short string is the same key as itself alone. -/
theorem same_short_iff (k : Key) {s : Str} (hShort : s.isShort = true) :
    k.same (.str s) = true ↔ k = .str s := by
  cases k <;> simp only [same, str.injEq, Bool.false_eq_true, reduceCtorEq]
  rw [Str.equal_iff]
  constructor
  · rintro (rfl | ⟨hLong, hBytes⟩)
    · rfl
    · rw [Str.isShort_congr hBytes, hShort] at hLong
      cases hLong
  · exact Or.inl

/-- Keys that are the same start at the same bucket, so a search for one finds the other. -/
theorem mainPosition_eq_of_same {k l : Key} (h : k.same l = true) (buckets : Nat) :
    k.mainPosition buckets = l.mainPosition buckets := by
  cases k <;> cases l <;> simp_all [same, mainPosition]
  simp [Str.hash, Str.bytes_eq_of_equal h]

private theorem reduce_lt (word : UInt64) (bits : Nat) :
    reduce word (twoPow bits) < twoPow bits := by
  have hOdd : 0 < (twoPow bits - 1) ||| 1 := Nat.lt_of_lt_of_le Nat.one_pos Nat.right_le_or
  have hLe : (twoPow bits - 1) ||| 1 ≤ twoPow bits := by
    cases bits with
    | zero => decide
    | succ bits =>
        have hPos := twoPow_pos (bits + 1)
        apply Nat.le_of_lt
        apply Nat.or_lt_two_pow (n := bits + 1)
        · exact Nat.sub_lt hPos Nat.one_pos
        · exact Nat.one_lt_two_pow (Nat.succ_ne_zero bits)
  exact Nat.lt_of_lt_of_le (Nat.mod_lt _ hOdd) hLe

private theorem mask_lt (word bits : Nat) : word &&& (twoPow bits - 1) < twoPow bits :=
  Nat.lt_of_le_of_lt Nat.and_le_right (Nat.sub_lt (twoPow_pos bits) Nat.one_pos)

/-- Among a power of two of buckets every key has its main position. -/
theorem mainPosition_lt (k : Key) (bits : Nat) : k.mainPosition (twoPow bits) < twoPow bits := by
  cases k with
  | vacant => exact twoPow_pos bits
  | bool b => exact mask_lt _ bits
  | int n => exact reduce_lt _ bits
  | float x => exact reduce_lt _ bits
  | str s => exact mask_lt _ bits
  | object h => exact reduce_lt _ bits

end Key

end TaggedRuntime
