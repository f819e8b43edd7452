import TaggedRuntime.Json.Basic
import TaggedRuntime.Json.Reader
import TaggedRuntime.Proofs.Decimal.Notation
import TaggedRuntime.Proofs.Json.Fields

/-! Compact JSON text. Whatever the texts and keys of a value are, nothing in what is printed is a
control character, so the text is one line. -/

namespace TaggedRuntime.Json

/-- A number is an integer of 64 bits, signed or not. -/
def Integral : Json → Prop
  | .int n => -2 ^ 63 ≤ n ∧ n < 2 ^ 64
  | .float _ => False
  | _ => True

variable {v : Json} {text : List Char} {items : List Json} {fields : List (String × Json)}

/-- The ways to write a character inside quotes. -/
inductive Escaped (c : Char) : List Char → Prop where
  | named {letter : Char} (hLetter : letter ≠ 'u') (hNamed : Reader.named? letter = some c) :
      Escaped c ['\\', letter]
  | control (hControl : c.toNat < 0x20) :
      Escaped c ['\\', 'u', '0', '0', hexDigit (c.toNat / 16), hexDigit (c.toNat % 16)]
  | plain (hQuote : c ≠ '"') (hBackslash : c ≠ '\\') (hPrinted : 0x20 ≤ c.toNat) : Escaped c [c]

/-- Each character is written in one of three ways: as itself, by a letter behind a backslash, or by
its code. -/
theorem escaped_escape (c : Char) : Escaped c (escape c) := by
  unfold escape
  iterate 7
    split
    next hNamed =>
      subst hNamed
      exact .named (by decide) rfl
  split
  next hControl => exact .control hControl
  next hControl => exact .plain ‹_› ‹_› (not_lt.mp hControl)

theorem quote_append (s : String) (rest : List Char) :
    quote s ++ rest = '"' :: (s.toList.flatMap escape ++ '"' :: rest) := by
  rw [quote, List.append_assoc, List.singleton_append, List.cons_append]

/-- Items are written one after another with commas in between. The last one has none behind it and
is a case of its own. -/
theorem renderItems_cons (v : Json) (hMore : items ≠ []) :
    renderItems (v :: items) = v.render ++ ',' :: renderItems items := by
  cases items with
  | nil => exact absurd rfl hMore
  | cons => rw [renderItems]; exact nofun

/-- Fields are written like items, each with its key in front. -/
theorem renderFields_cons (key : String) (v : Json) (hMore : fields ≠ []) :
    renderFields ((key, v) :: fields) =
      quote key ++ ':' :: (v.render ++ ',' :: renderFields fields) := by
  cases fields with
  | nil => exact absurd rfl hMore
  | cons =>
      rw [renderFields, List.append_assoc, List.cons_append]
      exact nofun

/-- No control character. -/
def Printed (text : List Char) : Prop := ∀ c ∈ text, 0x20 ≤ c.toNat

instance (text : List Char) : Decidable (Printed text) := List.decidableBAll _ text

theorem Printed.nil : Printed [] := List.forall_mem_nil _

theorem Printed.append {text text' : List Char} (hText : Printed text) (hText' : Printed text') :
    Printed (text ++ text') := List.forall_mem_append.mpr ⟨hText, hText'⟩

theorem Printed.cons {c : Char} (hc : 0x20 ≤ c.toNat) (hText : Printed text) :
    Printed (c :: text) := List.forall_mem_cons.mpr ⟨hc, hText⟩

/-- A control character is written by its code in letters and digits. There are thirty-two of them,
so all are looked at. -/
theorem printed_control : ∀ n < 32,
    Printed ['\\', 'u', '0', '0', hexDigit (n / 16), hexDigit (n % 16)] := by
  decide

/-- The letters that stand for characters behind a backslash are no control characters themselves.
-/
theorem printed_named {letter c : Char} (hNamed : Reader.named? letter = some c) :
    0x20 ≤ letter.toNat := by
  unfold Reader.named? at hNamed
  split at hNamed
  iterate 8 next => decide
  cases hNamed

theorem Escaped.printed {c : Char} {written : List Char} (hEscaped : Escaped c written) :
    Printed written := by
  cases hEscaped with
  | named _ hNamed => exact .cons (by decide) (.cons (printed_named hNamed) .nil)
  | control hControl => exact printed_control c.toNat hControl
  | plain _ _ hPrinted => exact .cons hPrinted .nil

/-- A text in quotes is printed without control characters, although it may have some. -/
theorem printed_quote (s : String) : Printed (quote s) := by
  have hChars : Printed (s.toList.flatMap escape) := by
    intro c hc
    obtain ⟨d, -, hEscape⟩ := List.mem_flatMap.mp hc
    exact (escaped_escape d).printed c hEscape
  exact (hChars.cons (by decide)).append (.cons (by decide) .nil)

theorem printed_ofInt (n : ℤ) : Printed (Decimal.ofInt n) := by
  have hDigits (n : ℕ) : Printed (Nat.toDigits 10 n) := fun c hc =>
    le_trans (by decide) (Char.isDigit_iff_toNat.mp (Decimal.isDigit_toDigits n hc)).1
  rw [Decimal.ofInt]
  split
  · exact (hDigits _).cons (by decide)
  · exact hDigits _

/-- Items add nothing to their texts but commas. -/
theorem printed_renderItems (hItems : ∀ v ∈ items, Printed v.render) :
    Printed (renderItems items) := by
  induction items with
  | nil => rw [renderItems]; exact .nil
  | cons v more ih =>
      obtain ⟨hFirst, hMore⟩ := List.forall_mem_cons.mp hItems
      by_cases hEnd : more = []
      · subst hEnd
        rwa [renderItems]
      · rw [renderItems_cons v hEnd]
        exact hFirst.append ((ih hMore).cons (by decide))

/-- Fields add quotes, colons and commas. -/
theorem printed_renderFields (hFields : ∀ field ∈ fields, Printed field.2.render) :
    Printed (renderFields fields) := by
  induction fields with
  | nil => rw [renderFields]; exact .nil
  | cons field more ih =>
      obtain ⟨key, v⟩ := field
      obtain ⟨(hFirst : Printed v.render), hMore⟩ := List.forall_mem_cons.mp hFields
      by_cases hEnd : more = []
      · subst hEnd
        rw [renderFields]
        exact (printed_quote key).append (hFirst.cons (by decide))
      · rw [renderFields_cons key v hEnd]
        exact (printed_quote key).append
          ((hFirst.append ((ih hMore).cons (by decide))).cons (by decide))

/-- The text of a value is one line. Numbers are integers here, since nothing is said of how
fractions are printed. -/
theorem printed_render (hIntegral : v.Everywhere Integral) : Printed v.render := by
  induction hIntegral with
  | @intro v hHere hInside ih =>
      cases v with
      | null =>
          rw [render]
          decide
      | bool b => cases b <;> rw [render] <;> decide
      | int n => rw [render]; exact printed_ofInt n
      | float x => exact absurd hHere id
      | str s => rw [render]; exact printed_quote s
      | array items =>
          rw [render]
          exact ((printed_renderItems ih).cons (by decide)).append (.cons (by decide) .nil)
      | object fields =>
          have hFields : ∀ field ∈ fields, Printed field.2.render := fun field hField =>
            ih _ (List.mem_map_of_mem hField)
          rw [render]
          exact ((printed_renderFields hFields).cons (by decide)).append (.cons (by decide) .nil)

end TaggedRuntime.Json
