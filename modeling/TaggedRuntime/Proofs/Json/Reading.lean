import TaggedRuntime.Json.Reader
import TaggedRuntime.Proofs.Json.Printing

/-! Compact JSON text is read back as the value it was printed from, if every number in the value is
an integer of 64 bits and every object has its fields in order. -/

namespace TaggedRuntime.Json

/-! ### Text in quotes -/

/-- The code of a control character is read back from its two hexadecimal digits. -/
theorem codeUnit?_control : ∀ n < 32,
    Reader.codeUnit? '0' '0' (hexDigit (n / 16)) (hexDigit (n % 16)) = some n := by
  decide

variable {text chars rest : List Char}

/-- A letter behind a backslash is read as the character that it names. The letter of codes names
none and is read in another way. -/
theorem quoted_named {letter c : Char} (hLetter : letter ≠ 'u')
    (hNamed : Reader.named? letter = some c) (hRest : Reader.quoted text = some (chars, rest)) :
    Reader.quoted ('\\' :: letter :: text) = some (c :: chars, rest) := by
  rw [Reader.quoted, hNamed, hRest]
  · rfl
  · exact fun _ _ _ _ _ hSame => absurd hSame hLetter

theorem quoted_control {n : ℕ} (hn : n < 32) (hRest : Reader.quoted text = some (chars, rest)) :
    Reader.quoted ('\\' :: 'u' :: '0' :: '0' :: hexDigit (n / 16) :: hexDigit (n % 16) :: text) =
      some (Char.ofNat n :: chars, rest) := by
  rw [Reader.quoted, codeUnit?_control n hn, Option.bind_eq_bind, Option.bind_some]
  simp only [show ¬ 0xd800 ≤ n by omega, show ¬ 0xdc00 ≤ n by omega, decide_false,
    Bool.false_and, Bool.false_eq_true, if_false, hRest]
  rfl

/-- A character that is no quote, no backslash and no control character is read as itself. -/
theorem quoted_plain {c : Char} (hQuote : c ≠ '"') (hBackslash : c ≠ '\\')
    (hPrinted : 32 ≤ c.toNat) (hRest : Reader.quoted text = some (chars, rest)) :
    Reader.quoted (c :: text) = some (c :: chars, rest) := by
  rw [Reader.quoted, if_neg (by omega), hRest]
  · rfl
  · exact hQuote
  · exact fun _ _ _ _ _ hSame => absurd hSame hBackslash
  · exact fun _ _ hSame => absurd hSame hBackslash

/-- A character is read back however it was written. -/
theorem Escaped.quoted {c : Char} {written : List Char} (hEscaped : Escaped c written)
    (hRest : Reader.quoted text = some (chars, rest)) :
    Reader.quoted (written ++ text) = some (c :: chars, rest) := by
  cases hEscaped with
  | named hLetter hNamed => exact quoted_named hLetter hNamed hRest
  | control hControl =>
      have hChar := quoted_control hControl hRest
      rwa [Char.ofNat_toNat] at hChar
  | plain hQuote hBackslash hPrinted => exact quoted_plain hQuote hBackslash hPrinted hRest

/-- A quoted text is read back, whatever characters it has. -/
theorem quoted_text (chars rest : List Char) :
    Reader.quoted (chars.flatMap escape ++ '"' :: rest) = some (chars, rest) := by
  induction chars with
  | nil => rw [List.flatMap_nil, List.nil_append, Reader.quoted]
  | cons c chars ih =>
      rw [List.flatMap_cons, List.append_assoc]
      exact (escaped_escape c).quoted ih

/-! ### Numbers -/

/-- What stands behind a value: nothing, or what the array or object around it goes on or ends
with. -/
inductive Follows : List Char → Prop where
  | nothing : Follows []
  | mark {c : Char} (rest : List Char) (hMark : c = ',' ∨ c = ']' ∨ c = '}') : Follows (c :: rest)

/-- Reading on never makes a number smaller. So a number that is too large is known to be before its
end. -/
theorem le_ofDigitChars (text : List Char) (start : ℕ) :
    start ≤ Nat.ofDigitChars 10 text start := by
  induction text generalizing start with
  | nil => exact le_of_eq Nat.ofDigitChars_nil.symm
  | cons c rest ih =>
      rw [Nat.ofDigitChars_cons]
      exact le_trans (by omega) (ih _)

/-- No digit is dropped from a number that fits. -/
theorem accumulate_eq {text : List Char} {start : ℕ}
    (hFits : Nat.ofDigitChars 10 text start < twoPow 64) :
    Reader.accumulate start text = (Nat.ofDigitChars 10 text start, text.length) := by
  induction text generalizing start with
  | nil => rw [Reader.accumulate, Nat.ofDigitChars_nil, List.length_nil]
  | cons c text ih =>
      rw [Nat.ofDigitChars_cons, Nat.mul_comm] at hFits
      have hNext := (le_ofDigitChars text _).trans_lt hFits
      rw [Reader.accumulate, Reader.digitValue, if_pos hNext, ih hFits, Nat.ofDigitChars_cons,
        Nat.mul_comm, List.length_cons]

/-- A number other than zero does not start with the digit zero. -/
theorem head?_toDigits {n : ℕ} (hn : 0 < n) : (Nat.toDigits 10 n).head? ≠ some '0' := by
  induction n using Nat.strong_induction_on with
  | _ n ih =>
      rcases Nat.lt_or_ge n 10 with hSmall | hLarge
      · have hDigit : ∀ d < 10, 0 < d → [Nat.digitChar d].head? ≠ some '0' := by decide
        rw [Nat.toDigits_of_lt_base hSmall]
        exact hDigit n hSmall hn
      · rw [Nat.toDigits_of_base_le (by decide) hLarge,
          List.head?_append_of_ne_nil _ Nat.toDigits_ne_nil]
        exact ih (n / 10) (by omega) (by omega)

/-- Only zero is printed with the digit zero in front. -/
theorem leading_toDigits (n : ℕ) :
    ((Nat.toDigits 10 n).isEmpty || (decide ((Nat.toDigits 10 n).head? = some '0') &&
      decide ((Nat.toDigits 10 n).length ≠ 1))) = false := by
  rw [List.isEmpty_eq_false_iff.mpr Nat.toDigits_ne_nil, Bool.false_or, Bool.and_eq_false_iff]
  rcases Nat.eq_zero_or_pos n with rfl | hn
  · exact .inr rfl
  · exact .inl (decide_eq_false (head?_toDigits hn))

/-- The digits of a number end where the number ends. What follows has to start with something that
is no digit. -/
theorem digits_append (n : ℕ) (hFollows : Follows rest) :
    Reader.digits (Nat.toDigits 10 n ++ rest) = (Nat.toDigits 10 n, rest) := by
  have hDigits := fun c => Decimal.isDigit_toDigits n (c := c)
  rw [Reader.digits, List.span_eq_takeWhile_dropWhile, List.takeWhile_append_of_pos hDigits,
    List.dropWhile_append_of_pos hDigits]
  cases hFollows with
  | nothing => rw [List.takeWhile_nil, List.append_nil, List.dropWhile_nil]
  | @mark c rest hMark =>
      have hOther : ¬ c.isDigit = true := by rcases hMark with rfl | rfl | rfl <;> decide
      rw [List.takeWhile_cons_of_neg hOther, List.append_nil, List.dropWhile_cons_of_neg hOther]

theorem fraction_follows (hFollows : Follows rest) : Reader.fraction rest = some (none, rest) := by
  cases hFollows with
  | nothing => rfl
  | mark _ hMark => rcases hMark with rfl | rfl | rfl <;> rfl

theorem exponent_follows (hFollows : Follows rest) : Reader.exponent rest = some (none, rest) := by
  cases hFollows with
  | nothing => rfl
  | mark _ hMark => rcases hMark with rfl | rfl | rfl <;> rfl

theorem first_digit (n : ℕ) : ∃ c digits, Nat.toDigits 10 n = c :: digits ∧ c.isDigit = true := by
  obtain ⟨c, digits, hDigits⟩ := List.exists_cons_of_ne_nil (Nat.toDigits_ne_nil (b := 10) (n := n))
  exact ⟨c, digits, hDigits, Decimal.isDigit_toDigits n (hDigits ▸ List.mem_cons_self)⟩

/-- The digits of a natural number are read as one number, and what follows is left. -/
theorem number_natural {n : ℕ} {v : Json} (hFollows : Follows rest)
    (hValue : Reader.NumberParts.value ⟨false, Nat.toDigits 10 n, none, none⟩ = some v) :
    Reader.number (Nat.toDigits 10 n ++ rest) = some (v, rest) := by
  rw [Reader.number]
  · simp only [digits_append n hFollows, leading_toDigits, Bool.false_eq_true, if_false,
      fraction_follows hFollows, exponent_follows hFollows, Option.bind_eq_bind, Option.bind_some,
      hValue]
    rfl
  · intro tail hText
    obtain ⟨c, digits, hDigits, hDigit⟩ := first_digit n
    rw [hDigits, List.cons_append] at hText
    rw [(List.cons.inj hText).1] at hDigit
    exact absurd hDigit (by decide)

/-- The same behind a sign. -/
theorem number_negated {n : ℕ} {v : Json} (hFollows : Follows rest)
    (hValue : Reader.NumberParts.value ⟨true, Nat.toDigits 10 n, none, none⟩ = some v) :
    Reader.number ('-' :: (Nat.toDigits 10 n ++ rest)) = some (v, rest) := by
  rw [Reader.number]
  simp only [digits_append n hFollows, leading_toDigits, Bool.false_eq_true, if_false,
    fraction_follows hFollows, exponent_follows hFollows, Option.bind_eq_bind, Option.bind_some,
    hValue]
  rfl

/-- Digits that fit are an integer. Zero behind a sign is left out: it is not printed, and it would
be read as a float. -/
theorem value_digits (negative : Bool) {n : ℕ} (hFits : n < twoPow 64)
    (hSign : negative = true → 0 < n ∧ n ≤ twoPow 63) :
    Reader.NumberParts.value ⟨negative, Nat.toDigits 10 n, none, none⟩ =
      some (.int (if negative then -n else n)) := by
  have hDigits : Reader.accumulate 0 (Nat.toDigits 10 n) = (n, (Nat.toDigits 10 n).length) := by
    rw [accumulate_eq (by rwa [Nat.ofDigitChars_ten_toDigits]), Nat.ofDigitChars_ten_toDigits]
  have hInteger : (!negative || (decide (0 < n) && decide (n ≤ twoPow 63))) = true := by
    cases negative with
    | false => rfl
    | true => simpa using hSign rfl
  rw [Reader.NumberParts.value]
  simp only [hDigits, Nat.sub_self, decide_true, hInteger, Option.isNone_none, Bool.and_self,
    if_true]

/-- An integer of 64 bits is read back. Both signed and unsigned words are among these, and what
follows must not go on with the number. -/
theorem number_ofInt {n : ℤ} (hLow : -2 ^ 63 ≤ n) (hHigh : n < 2 ^ 64) (hFollows : Follows rest) :
    Reader.number (Decimal.ofInt n ++ rest) = some (.int n, rest) := by
  have h63 : twoPow 63 = 2 ^ 63 := rfl
  have h64 : twoPow 64 = 2 ^ 64 := rfl
  rw [Decimal.ofInt]
  split
  next hNegative =>
    have hValue := value_digits true (n := n.natAbs) (by omega) (fun _ => by omega)
    rw [if_pos rfl, show -(n.natAbs : ℤ) = n by omega] at hValue
    exact number_negated hFollows hValue
  next hNatural =>
    have hValue := value_digits false (n := n.natAbs) (by omega)
      fun hSign => absurd hSign Bool.false_ne_true
    rw [if_neg Bool.false_ne_true, show (n.natAbs : ℤ) = n by omega] at hValue
    exact number_natural hFollows hValue

/-! ### Values -/

/-- With as much fuel as it has characters, the text of a value is read back as the value, whatever
it is that goes on behind it. -/
def Reads (v : Json) : Prop :=
  ∀ ⦃fuel : ℕ⦄ ⦃rest : List Char⦄, v.render.length ≤ fuel → Follows rest →
    Reader.value fuel (v.render ++ rest) = some (v, rest)

theorem first_ofInt (n : ℤ) :
    ∃ c text, Decimal.ofInt n = c :: text ∧ (c = '-' ∨ c.isDigit = true) := by
  rw [Decimal.ofInt]
  split
  · exact ⟨'-', _, rfl, .inl rfl⟩
  · obtain ⟨c, digits, hDigits, hDigit⟩ := first_digit n.natAbs
    exact ⟨c, digits, hDigits, .inr hDigit⟩

theorem skip_number {c : Char} (hFirst : c = '-' ∨ c.isDigit = true) (text : List Char) :
    Reader.skip (c :: text) = c :: text := by
  rw [Reader.skip, List.dropWhile_cons_of_neg]
  simp only [Bool.or_eq_true, decide_eq_true_eq]
  rintro (((rfl | rfl) | rfl) | rfl) <;> exact absurd hFirst (by decide)

/-- A character other than a blank stands at the front of a value, and none that closes an array. So
an array with items is not taken for one without. -/
theorem render_first {v : Json} (hIntegral : Integral v) :
    ∃ c text, v.render = c :: text ∧ c ≠ ']' ∧ ∀ tail, Reader.skip (c :: tail) = c :: tail := by
  cases v with
  | null => exact ⟨'n', _, by rw [render], by decide, fun _ => rfl⟩
  | bool b =>
      cases b with
      | false => exact ⟨'f', _, by rw [render], by decide, fun _ => rfl⟩
      | true => exact ⟨'t', _, by rw [render], by decide, fun _ => rfl⟩
  | int n =>
      obtain ⟨c, text, hText, hFirst⟩ := first_ofInt n
      refine ⟨c, text, by rw [render, hText], ?_, ?_⟩
      · rintro rfl
        exact absurd hFirst (by decide)
      · exact skip_number hFirst
  | float x => exact absurd hIntegral id
  | str s => exact ⟨'"', _, by rw [render, quote, List.cons_append], by decide, fun _ => rfl⟩
  | array items => exact ⟨'[', _, by rw [render, List.cons_append], by decide, fun _ => rfl⟩
  | object fields => exact ⟨'{', _, by rw [render, List.cons_append], by decide, fun _ => rfl⟩

/-- There is fuel to start with, since no text of a value is empty. -/
theorem reads_of_succ {v : Json} (hIntegral : Integral v)
    (hReads : ∀ fuel rest, v.render.length ≤ fuel + 1 → Follows rest →
      Reader.value (fuel + 1) (v.render ++ rest) = some (v, rest)) : Reads v := by
  intro fuel rest hFuel hFollows
  cases fuel with
  | zero =>
      obtain ⟨c, text, hText, -⟩ := render_first hIntegral
      rw [hText] at hFuel
      exact absurd hFuel (Nat.not_succ_le_zero _)
  | succ fuel => exact hReads fuel rest hFuel hFollows

theorem value_number {c : Char} (hFirst : c = '-' ∨ c.isDigit = true) (fuel : ℕ)
    (text : List Char) : Reader.value (fuel + 1) (c :: text) = Reader.number (c :: text) := by
  have hOther {d : Char} {tail : List Char} (hd : ¬ (d = '-' ∨ d.isDigit = true)) :
      c :: text ≠ d :: tail := fun hSame => hd ((List.cons.inj hSame).1 ▸ hFirst)
  rw [Reader.value, skip_number hFirst]
  split <;> first | rfl | exact absurd ‹_› (hOther (by decide))

/-- Behind an opening bracket items are read, if there are any. -/
theorem value_array {c : Char} (hOpen : c ≠ ']') (hSolid : Reader.skip (c :: text) = c :: text)
    (fuel : ℕ) :
    Reader.value (fuel + 1) ('[' :: c :: text) =
      (Reader.items fuel (c :: text)).map fun (items, rest) => (.array items, rest) := by
  rw [Reader.value, show Reader.skip ('[' :: _) = '[' :: _ from rfl]
  simp only [hSolid]
  split
  · exact absurd (List.cons.inj ‹_›).1 hOpen
  · rfl

theorem value_object (fuel : ℕ) (text : List Char) :
    Reader.value (fuel + 1) ('{' :: '"' :: text) =
      (Reader.members fuel [] ('"' :: text)).map fun (fields, rest) => (.object fields, rest) := by
  rw [Reader.value]
  rfl

variable {v : Json} {fuel : ℕ} {key : String} {before fields : List (String × Json)}
  {items : List Json}

theorem items_last (hReads : Reads v) (hFuel : v.render.length ≤ fuel) (rest : List Char) :
    Reader.items (fuel + 1) (v.render ++ ']' :: rest) = some ([v], rest) := by
  rw [Reader.items, hReads hFuel (.mark rest (by decide))]
  rfl

theorem items_next (hReads : Reads v) (hFuel : v.render.length ≤ fuel)
    (hMore : Reader.items fuel text = some (items, rest)) :
    Reader.items (fuel + 1) (v.render ++ ',' :: text) = some (v :: items, rest) := by
  rw [Reader.items, hReads hFuel (.mark text (by decide)), Option.bind_eq_bind, Option.bind_some]
  exact congrArg (Option.bind · _) hMore

/-- A key, a colon, and a value; what stands behind the value is looked at next. What is read goes
to the fields before it, in its place. -/
theorem members_step (hReads : Reads v) (hFuel : v.render.length ≤ fuel) (hFollows : Follows text) :
    Reader.members (fuel + 1) before (quote key ++ ':' :: (v.render ++ text)) =
      match Reader.skip text with
      | '}' :: rest => some (insertField key v before, rest)
      | ',' :: rest => Reader.members fuel (insertField key v before) rest
      | _ => none := by
  have hColon (text : List Char) : Reader.skip (':' :: text) = ':' :: text := rfl
  rw [quote_append, Reader.members, show Reader.skip ('"' :: _) = '"' :: _ from rfl]
  simp only [quoted_text, hColon, hReads hFuel hFollows, Option.bind_eq_bind, Option.bind_some,
    String.ofList_toList]
  rfl

theorem members_last (hReads : Reads v) (hFuel : v.render.length ≤ fuel) (rest : List Char) :
    Reader.members (fuel + 1) before (quote key ++ ':' :: (v.render ++ '}' :: rest)) =
      some (insertField key v before, rest) := by
  rw [members_step hReads hFuel (.mark rest (by decide))]
  rfl

/-- A member in front of a comma goes to the fields that were read before, and the others follow. -/
theorem members_next (hReads : Reads v) (hFuel : v.render.length ≤ fuel)
    (hMore : Reader.members fuel (insertField key v before) text = some (fields, rest)) :
    Reader.members (fuel + 1) before (quote key ++ ':' :: (v.render ++ ',' :: text)) =
      some (fields, rest) := by
  rw [members_step hReads hFuel (.mark text (by decide))]
  exact hMore

/-- What stands at the front of items is no closing bracket and no blank. -/
theorem renderItems_first (hIntegral : ∀ v ∈ items, Integral v) (hSome : items ≠ []) :
    ∃ c text, renderItems items = c :: text ∧ c ≠ ']' ∧
      ∀ tail, Reader.skip (c :: tail) = c :: tail := by
  obtain ⟨v, more, rfl⟩ := List.exists_cons_of_ne_nil hSome
  obtain ⟨c, text, hText, hFirst⟩ := render_first (hIntegral v List.mem_cons_self)
  by_cases hEnd : more = []
  · subst hEnd
    exact ⟨c, text, by rw [renderItems, hText], hFirst⟩
  · exact ⟨c, _, by rw [renderItems_cons v hEnd, hText, List.cons_append], hFirst⟩

theorem renderFields_first (hSome : fields ≠ []) : ∃ text, renderFields fields = '"' :: text := by
  obtain ⟨⟨key, v⟩, more, rfl⟩ := List.exists_cons_of_ne_nil hSome
  by_cases hEnd : more = []
  · subst hEnd
    exact ⟨_, by rw [renderFields, quote_append]⟩
  · exact ⟨_, by rw [renderFields_cons key v hEnd, quote_append]⟩

/-- Items are read back in order. The induction is on the items, and the fuel is the length of their
text. -/
theorem items_reads (hReads : ∀ v ∈ items, Reads v) (hSome : items ≠ [])
    (hFuel : (renderItems items).length < fuel) (rest : List Char) :
    Reader.items fuel (renderItems items ++ ']' :: rest) = some (items, rest) := by
  induction items generalizing fuel with
  | nil => exact absurd rfl hSome
  | cons v more ih =>
      obtain ⟨fuel, rfl⟩ := Nat.exists_eq_succ_of_ne_zero (Nat.ne_zero_of_lt hFuel)
      obtain ⟨hFirst, hMore⟩ := List.forall_mem_cons.mp hReads
      by_cases hEnd : more = []
      · subst hEnd
        rw [renderItems] at hFuel ⊢
        exact items_last hFirst (by omega) rest
      · rw [renderItems_cons v hEnd, List.length_append, List.length_cons] at hFuel
        rw [renderItems_cons v hEnd, List.append_assoc, List.cons_append]
        exact items_next hFirst (by omega) (ih hMore hEnd (by omega))

/-- Fields in order are read back as they are: each goes to the end of those before it, since its
key is past theirs. -/
theorem members_reads (hReads : ∀ field ∈ fields, Reads field.2) (hSome : fields ≠ [])
    (hOrder : InOrder (before ++ fields)) (hFuel : (renderFields fields).length ≤ fuel)
    (rest : List Char) :
    Reader.members fuel before (renderFields fields ++ '}' :: rest) =
      some (before ++ fields, rest) := by
  induction fields generalizing before fuel with
  | nil => exact absurd rfl hSome
  | cons field more ih =>
      obtain ⟨key, v⟩ := field
      obtain ⟨(hFirst : Reads v), hMore⟩ := List.forall_mem_cons.mp hReads
      have hLast : ∀ field ∈ before, Text.toBytes field.1 < Text.toBytes key := fun field hField =>
        (List.pairwise_append.mp hOrder).2.2 field hField _ List.mem_cons_self
      have hAdded : insertField key v before ++ more = before ++ (key, v) :: more := by
        rw [insertField_append hLast, List.append_assoc, List.singleton_append]
      by_cases hEnd : more = []
      · subst hEnd
        rw [renderFields, List.length_append, List.length_cons] at hFuel
        obtain ⟨fuel, rfl⟩ := Nat.exists_eq_succ_of_ne_zero (show fuel ≠ 0 by omega)
        rw [List.append_nil] at hAdded
        rw [renderFields, List.append_assoc, List.cons_append, ← hAdded]
        exact members_last hFirst (by omega) rest
      · rw [renderFields_cons key v hEnd, List.length_append, List.length_cons, List.length_append,
          List.length_cons] at hFuel
        obtain ⟨fuel, rfl⟩ := Nat.exists_eq_succ_of_ne_zero (show fuel ≠ 0 by omega)
        rw [renderFields_cons key v hEnd, List.append_assoc, List.cons_append, List.append_assoc,
          List.cons_append, ← hAdded]
        exact members_next hFirst (by omega) (ih hMore hEnd (hAdded ▸ hOrder) (by omega))

/-- An array is read back if its items are. An array without items is a case of its own, since
nothing is read behind its bracket. -/
theorem array_reads (hReads : ∀ v ∈ items, Reads v) (hIntegral : ∀ v ∈ items, Integral v) :
    Reads (.array items) := by
  refine reads_of_succ trivial fun fuel rest hFuel _ => ?_
  rw [render, List.length_append, List.length_cons, List.length_singleton] at hFuel
  rw [render, List.append_assoc, List.cons_append, List.singleton_append]
  by_cases hSome : items = []
  · subst hSome
    rw [renderItems, Reader.value]
    rfl
  · have hItems := items_reads hReads hSome (show _ < fuel by omega) rest
    obtain ⟨c, text, hText, hOpen, hSolid⟩ := renderItems_first hIntegral hSome
    rw [hText, List.cons_append] at hItems ⊢
    rw [value_array hOpen (hSolid _), hItems]
    rfl

/-- An object is read back if its values are and its fields are in order. -/
theorem object_reads (hReads : ∀ field ∈ fields, Reads field.2) (hOrder : InOrder fields) :
    Reads (.object fields) := by
  refine reads_of_succ trivial fun fuel rest hFuel _ => ?_
  rw [render, List.length_append, List.length_cons, List.length_singleton] at hFuel
  rw [render, List.append_assoc, List.cons_append, List.singleton_append]
  by_cases hSome : fields = []
  · subst hSome
    rw [renderFields, Reader.value]
    rfl
  · have hFuel' : (renderFields fields).length ≤ fuel := by omega
    have hMembers := members_reads hReads hSome (List.nil_append fields ▸ hOrder) hFuel' rest
    obtain ⟨text, hText⟩ := renderFields_first hSome
    rw [hText, List.cons_append] at hMembers ⊢
    rw [value_object, hMembers]
    rfl

/-- The text of a value is read back as the value. The induction is on the value, with all its parts
read back. -/
theorem reads_of_integral (hIntegral : v.Everywhere Integral) (hOrdered : v.Everywhere Ordered) :
    Reads v := by
  induction hIntegral with
  | @intro v hHere hInside ih =>
      obtain ⟨hOrder, hBelow⟩ := hOrdered
      have hReads (child : Json) (hChild : child ∈ v.children) : Reads child :=
        ih child hChild (hBelow child hChild)
      cases v with
      | null =>
          refine reads_of_succ hHere fun fuel rest _ _ => ?_
          rw [render, Reader.value]
          rfl
      | bool b =>
          refine reads_of_succ hHere fun fuel rest _ _ => ?_
          cases b <;> rw [render, Reader.value] <;> rfl
      | int n =>
          obtain ⟨c, text, hText, hFirst⟩ := first_ofInt n
          refine reads_of_succ hHere fun fuel rest _ hFollows => ?_
          have hNumber := number_ofInt hHere.1 hHere.2 hFollows
          rw [hText] at hNumber
          rw [render, hText, List.cons_append, value_number hFirst]
          exact hNumber
      | float x => exact absurd hHere id
      | str s =>
          refine reads_of_succ hHere fun fuel rest _ _ => ?_
          rw [render, quote_append, Reader.value, show Reader.skip ('"' :: _) = '"' :: _ from rfl]
          simp only [quoted_text, Option.map_some, String.ofList_toList]
      | array items =>
          refine array_reads hReads fun v hv => ?_
          obtain ⟨hItem, -⟩ := hInside v hv
          exact hItem
      | object fields =>
          exact object_reads (fun field hField => hReads _ (List.mem_map_of_mem hField)) hOrder

/-- Nothing is lost when a value is printed: its text is read as the value again. -/
theorem read?_render (hIntegral : v.Everywhere Integral) (hOrdered : v.Everywhere Ordered) :
    read? v.render = some v := by
  have hReads := reads_of_integral hIntegral hOrdered (Nat.le_succ v.render.length) .nothing
  rw [List.append_nil] at hReads
  rw [read?, hReads]
  rfl

end TaggedRuntime.Json
