import Std.Data.String.ToInt
import TaggedRuntime.Proofs.Binary64.Rational
import TaggedRuntime.Proofs.Contract
import TaggedRuntime.Proofs.Decimal.Notation
import TaggedRuntime.Proofs.Heap.Basic
import TaggedRuntime.Strings

/-! The text of numbers. A float is printed to fourteen significant digits and
always shows that it is none of the integers, so integers and floats are never
printed alike. -/

namespace TaggedRuntime

namespace Decimal

/-- A text with the sign bit of a word in front. -/
def signed (x : Binary64) (text : List Char) : List Char :=
  if x.negative then '-' :: text else text

/-- Only digits and minus signs. -/
def Bare (text : List Char) : Prop := ∀ c ∈ text, c = '-' ∨ c.isDigit = true

instance (text : List Char) : Decidable (Bare text) :=
  List.decidableBAll (fun c => c = '-' ∨ c.isDigit = true) text

/-- What a word is printed as. A finite number is printed by its magnitude, and marked by a
fraction of zero where it would be bare. -/
inductive FloatText (x : Binary64) : List Char → Prop where
  | nan (hNaN : x.isNaN = true) : FloatText x (signed x ['n', 'a', 'n'])
  | infinite (hInfinite : x.isInfinite = true) : FloatText x (signed x ['i', 'n', 'f'])
  | zero (hZero : x.isZero = true) : FloatText x (signed x ['0', '.', '0'])
  | bare {body : List Char} (hFinite : x.isFinite = true) (hNonzero : x.isZero = false)
      (hBody : General |x.toRat| body) (hBare : Bare (signed x body)) :
      FloatText x (signed x body ++ ['.', '0'])
  | marked {body : List Char} (hFinite : x.isFinite = true) (hNonzero : x.isZero = false)
      (hBody : General |x.toRat| body) (hMarked : ¬Bare (signed x body)) :
      FloatText x (signed x body)

/-- A text looks like an integer if there is nothing in it but digits and minus signs. Infinities
and what is no number do not. -/
theorem looksIntegral_iff (text : List Char) : looksIntegral text = true ↔ Bare text := by
  simp only [looksIntegral, Bare, List.all_eq_true, Bool.or_eq_true, Bool.and_eq_true,
    decide_eq_true_eq, Char.isDigit, ge_iff_le, Char.le_def]

/-- The text of a finite number that is not zero is that of its magnitude as a rational. -/
theorem general_toRat {x : Binary64} (hFinite : x.isFinite = true) (hNonzero : x.isZero = false) :
    General |x.toRat| (generalMagnitude x.units.natAbs Binary64.one) := by
  have hMagnitude : x.magnitude ≤ Binary64.infinite := (of_decide_eq_true hFinite).le
  have hUnits : 0 < x.units.natAbs := by
    rw [Binary64.natAbs_units]
    refine Nat.pos_of_ne_zero fun hZero => of_decide_eq_false hNonzero ?_
    exact Binary64.unitsOfMagnitude_inj hMagnitude (Nat.zero_le _) hZero
  have hValue : |x.toRat| = (x.units.natAbs : ℚ) / Binary64.one := by
    rw [Binary64.toRat, abs_div, Nat.abs_cast, Nat.cast_natAbs, Int.cast_abs]
  rw [hValue]
  exact general_generalMagnitude hUnits Binary64.one_positive

theorem bare_signed (x : Binary64) {text : List Char} : Bare (signed x text) ↔ Bare text := by
  unfold signed
  split
  next => exact List.forall_mem_cons.trans (and_iff_right (.inl rfl))
  next => rfl

theorem ofFloat_of_bare {x : Binary64} {text : List Char} (hText : general x = signed x text)
    (hBare : Bare (signed x text)) : ofFloat x = signed x text ++ ['.', '0'] := by
  unfold ofFloat
  dsimp only
  rw [hText, if_pos ((looksIntegral_iff _).mpr hBare)]

/-- A text that cannot be taken for that of an integer is left as it is. Those of infinities and of
no number are among them. -/
theorem ofFloat_of_marked {x : Binary64} {text : List Char} (hText : general x = signed x text)
    (hMarked : ¬Bare (signed x text)) : ofFloat x = signed x text := by
  unfold ofFloat
  dsimp only
  rw [hText, if_neg fun hBare => hMarked ((looksIntegral_iff _).mp hBare)]

theorem general_eq (x : Binary64) : general x = signed x
    (if x.isNaN then ['n', 'a', 'n'] else if x.isInfinite then ['i', 'n', 'f']
      else if x.isZero then ['0'] else generalMagnitude x.units.natAbs Binary64.one) := rfl

/-- What is printed for a word is its text. The cases are those of the word: no number, infinite,
zero, and all others. -/
theorem floatText_ofFloat (x : Binary64) : FloatText x (ofFloat x) := by
  have hText := general_eq x
  cases hNaN : x.isNaN with
  | true =>
      rw [hNaN, if_pos rfl] at hText
      rw [ofFloat_of_marked hText (by rw [bare_signed]; decide)]
      exact .nan hNaN
  | false =>
      rw [hNaN, if_neg Bool.false_ne_true] at hText
      cases hInfinite : x.isInfinite with
      | true =>
          rw [hInfinite, if_pos rfl] at hText
          rw [ofFloat_of_marked hText (by rw [bare_signed]; decide)]
          exact .infinite hInfinite
      | false =>
          rw [hInfinite, if_neg Bool.false_ne_true] at hText
          have hFinite : x.isFinite = true := decide_eq_true
            (Nat.lt_of_le_of_ne ((x.isNaN_eq_false_iff).mp hNaN) (of_decide_eq_false hInfinite))
          cases hZero : x.isZero with
          | true =>
              rw [hZero, if_pos rfl] at hText
              rw [ofFloat_of_bare hText (by rw [bare_signed]; decide)]
              have hPoint : signed x ['0'] ++ ['.', '0'] = signed x ['0', '.', '0'] := by
                unfold signed
                split <;> rfl
              rw [hPoint]
              exact .zero hZero
          | false =>
              rw [hZero, if_neg Bool.false_ne_true] at hText
              have hBody := general_toRat hFinite hZero
              by_cases hBare : Bare (signed x (generalMagnitude x.units.natAbs Binary64.one))
              · rw [ofFloat_of_bare hText hBare]
                exact .bare hFinite hZero hBody hBare
              · rw [ofFloat_of_marked hText hBare]
                exact .marked hFinite hZero hBody hBare

/-- The exponent that counts is the one after rounding: 9.99999999999999e-5 is printed as 0.0001. -/
example : ofFloat ⟨0x3f1a36e2eb1c4325⟩ = ['0', '.', '0', '0', '0', '1'] := by decide +kernel

/-! ### Characters -/

theorem ascii_of_isDigit {c : Char} (hDigit : c.isDigit = true) : c.toNat < 128 :=
  Nat.lt_of_le_of_lt (Char.isDigit_iff_toNat.mp hDigit).2 (by decide)

theorem ascii_toDigits (n : ℕ) : ∀ c ∈ Nat.toDigits 10 n, c.toNat < 128 :=
  fun _ hc => ascii_of_isDigit (isDigit_toDigits n hc)

theorem WrittenOut.ascii {q : ℚ} {text : List Char} (hText : WrittenOut q text) :
    ∀ c ∈ text, c.toNat < 128 := by
  cases hText with
  | whole n => exact ascii_toDigits n
  | pointed n digits last hDigits =>
      exact List.forall_mem_append.mpr ⟨ascii_toDigits n, List.forall_mem_cons.mpr
        ⟨by decide, fun c hc => ascii_of_isDigit (hDigits c hc)⟩⟩

theorem ascii_exponentDigits (n : ℕ) : ∀ c ∈ exponentDigits n, c.toNat < 128 := by
  unfold exponentDigits
  split
  next => exact List.forall_mem_cons.mpr ⟨by decide, ascii_toDigits n⟩
  next => exact ascii_toDigits n

/-- A number in positional or scientific notation is ASCII: digits, a point, a sign and the letter
of the exponent. -/
theorem General.ascii {v : ℚ} {text : List Char} (hText : General v text) :
    ∀ c ∈ text, c.toNat < 128 := by
  cases hText with
  | positional _ _ _ hWritten => exact hWritten.ascii
  | @scientific _ exponent _ _ _ hMantissa =>
      have hSign : (if exponent < 0 then '-' else '+').toNat < 128 := by split <;> decide
      exact List.forall_mem_append.mpr ⟨hMantissa.ascii, List.forall_mem_cons.mpr
        ⟨by decide, List.forall_mem_cons.mpr ⟨hSign, ascii_exponentDigits _⟩⟩⟩

theorem ascii_signed (x : Binary64) {text : List Char} (hText : ∀ c ∈ text, c.toNat < 128) :
    ∀ c ∈ signed x text, c.toNat < 128 := by
  unfold signed
  split
  next => exact List.forall_mem_cons.mpr ⟨by decide, hText⟩
  next => exact hText

/-- The text of a float is ASCII, so its bytes are its characters. -/
theorem FloatText.ascii {x : Binary64} {text : List Char} (hText : FloatText x text) :
    ∀ c ∈ text, c.toNat < 128 := by
  cases hText with
  | nan => exact ascii_signed x (by simp)
  | infinite => exact ascii_signed x (by simp)
  | zero => exact ascii_signed x (by simp)
  | bare _ _ hBody =>
      exact List.forall_mem_append.mpr ⟨ascii_signed x hBody.ascii, by simp⟩
  | marked _ _ hBody => exact ascii_signed x hBody.ascii

/-- No text of a float is bare. -/
theorem FloatText.not_bare {x : Binary64} {text : List Char} (hText : FloatText x text) :
    ¬Bare text := by
  cases hText with
  | nan => rw [bare_signed]; decide
  | infinite => rw [bare_signed]; decide
  | zero => rw [bare_signed]; decide
  | bare => exact fun hBare => by simpa using hBare '.' (by simp)
  | marked _ _ _ hMarked => exact hMarked

/-- Integers are printed as the library prints them. -/
theorem ofInt_eq (n : ℤ) : ofInt n = (toString n).toList := by
  rw [Int.toString_eq_repr, Int.repr_eq_if, ofInt]
  by_cases hNegative : n < 0
  · rw [if_pos hNegative, if_neg (Int.not_le.mpr hNegative), Nat.repr_eq_ofList_toDigits,
      String.toList_append, String.toList_ofList]
    have hAbs : (-n).toNat = n.natAbs := by omega
    rw [hAbs, String.toList_ofList]
    rfl
  · rw [if_neg hNegative, if_pos (Int.not_lt.mp hNegative), Nat.repr_eq_ofList_toDigits,
      String.toList_ofList]
    have hAbs : n.toNat = n.natAbs := by omega
    rw [hAbs]

theorem ascii_ofInt (n : ℤ) : ∀ c ∈ ofInt n, c.toNat < 128 := by
  unfold ofInt
  split
  next => exact List.forall_mem_cons.mpr ⟨by decide, ascii_toDigits _⟩
  next => exact ascii_toDigits _

/-- The text of an integer is bare. That of a float never is, which keeps the two apart. -/
theorem bare_ofInt (n : ℤ) : Bare (ofInt n) := by
  have hDigits : Bare (Nat.toDigits 10 n.natAbs) := fun c hc => .inr (isDigit_toDigits _ hc)
  unfold ofInt
  split
  next => exact List.forall_mem_cons.mpr ⟨.inl rfl, hDigits⟩
  next => exact hDigits

end Decimal

namespace Strings

open Decimal

/-- A text of bytes can be read back from them. Characters past ASCII would lose bits, so there must
be none. -/
theorem asciiBytes_injOn {text text' : List Char} (hAscii : ∀ c ∈ text, c.toNat < 128)
    (hAscii' : ∀ c ∈ text', c.toNat < 128) (hBytes : asciiBytes text = asciiBytes text') :
    text = text' := by
  have hBack {l : List Char} (hl : ∀ c ∈ l, c.toNat < 128) :
      (asciiBytes l).map (fun b => Char.ofNat b.toNat) = l := by
    unfold asciiBytes
    rw [List.map_map]
    refine (List.map_congr_left fun c hc => ?_).trans l.map_id
    have hByte : c.toNat.toUInt8.toNat = c.toNat :=
      Nat.mod_eq_of_lt (Nat.lt_trans (hl c hc) (by decide))
    rw [Function.comp_apply, hByte, Char.ofNat_toNat, id]
  rw [← hBack hAscii, hBytes, hBack hAscii']

/-- Making a string always succeeds, and the string has the bytes that it was to have: an interned
one that the heap gives instead of a new one has them as well. -/
theorem make_run {j : Journal Heap} (hReached : j.host.Reached) (loc : Location) (bytes : Bytes)
    (config : Config) : ∃ s after, make loc bytes config j = .ok s after ∧ s.bytes = bytes := by
  obtain ⟨s, h, hRun, hBytes, _⟩ := make_cases hReached.interned loc bytes config
  exact ⟨s, _, hRun, hBytes⟩

/-- A string has the bytes that it was made of, also where the heap gives one that it had. -/
theorem bytes_of_make {j after : Journal Heap} (hReached : j.host.Reached) {loc : Location}
    {bytes : Bytes} {config : Config} {s : Str} (hRun : make loc bytes config j = .ok s after) :
    s.bytes = bytes := by
  obtain ⟨s', after', hMade, hBytes⟩ := make_run hReached loc bytes config
  rw [hRun] at hMade
  cases hMade
  exact hBytes

/-- The text of a float shows the number rounded to fourteen significant digits, and that of an
integer is the integer in decimal. Integers and floats are never printed alike, and neither are
two integers. -/
theorem tostring_numbers {j j' : Journal Heap} (hReached : j.host.Reached)
    (hReached' : j'.host.Reached) (loc loc' : Location) (config config' : Config) :
    (∀ x : Binary64, ∃ s after text, tostring (.float x) loc config j = .ok s after ∧
      FloatText x text ∧ s.bytes = asciiBytes text) ∧
    (∀ n : Int64, ∃ s after, tostring (.int n) loc config j = .ok s after ∧
      s.bytes = asciiBytes (toString n.toInt).toList) ∧
    (∀ n x s t after after', tostring (.int n) loc config j = .ok s after →
      tostring (.float x) loc' config' j' = .ok t after' → s.bytes ≠ t.bytes) ∧
    (∀ m n s t after after', tostring (.int m) loc config j = .ok s after →
      tostring (.int n) loc' config' j' = .ok t after' → s.bytes = t.bytes → m = n) := by
  refine ⟨fun x => ?_, fun n => ?_, fun n x s t after after' hInt hFloat hSame => ?_,
    fun m n s t after after' hFirst hSecond hSame => ?_⟩
  · obtain ⟨s, after, hRun, hBytes⟩ := make_run hReached loc (asciiBytes (ofFloat x)) config
    exact ⟨s, after, ofFloat x, hRun, floatText_ofFloat x, hBytes⟩
  · obtain ⟨s, after, hRun, hBytes⟩ := make_run hReached loc (asciiBytes (ofInt n.toInt)) config
    exact ⟨s, after, hRun, by rw [hBytes, ofInt_eq]⟩
  · rw [bytes_of_make hReached hInt, bytes_of_make hReached' hFloat] at hSame
    have hText := asciiBytes_injOn (ascii_ofInt n.toInt) (floatText_ofFloat x).ascii hSame
    exact (floatText_ofFloat x).not_bare (hText ▸ bare_ofInt n.toInt)
  · rw [bytes_of_make hReached hFirst, bytes_of_make hReached' hSecond] at hSame
    have hText := asciiBytes_injOn (ascii_ofInt m.toInt) (ascii_ofInt n.toInt) hSame
    rw [ofInt_eq, ofInt_eq, String.toList_inj, Int.toString_eq_repr, Int.toString_eq_repr,
      Int.repr_inj] at hText
    exact Int64.toInt_inj.mp hText

/-- One is printed as 1 and as 1.0. -/
theorem tostring_numbers_one : ∃ s t after after',
    tostring (.int 1) {} {} { host := {} } = .ok s after ∧
    tostring (.float ⟨0x3ff0000000000000⟩) {} {} { host := {} } = .ok t after' ∧
    s.bytes = [49] ∧ t.bytes = [49, 46, 48] ∧ s.bytes ≠ t.bytes := by
  have hNew : ({ host := {} } : Journal Heap).host.Reached := .new 0
  obtain ⟨hFloats, hInts, hApart, _⟩ := tostring_numbers hNew hNew {} {} {} {}
  obtain ⟨s, after, hInt, hBytes⟩ := hInts 1
  obtain ⟨t, after', _, hFloat, _⟩ := hFloats ⟨0x3ff0000000000000⟩
  have hText : t.bytes = asciiBytes (ofFloat ⟨0x3ff0000000000000⟩) := bytes_of_make hNew hFloat
  refine ⟨s, t, after, after', hInt, hFloat, ?_, ?_, hApart _ _ _ _ _ _ hInt hFloat⟩
  · rw [hBytes]
    decide +kernel
  · rw [hText]
    decide +kernel

end Strings

end TaggedRuntime
