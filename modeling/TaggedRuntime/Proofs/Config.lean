import Mathlib.Algebra.Group.Nat.Defs
import TaggedRuntime.Config
import TaggedRuntime.Proofs.Words
import TaggedRuntime.Proofs.Text.Blank

/-! Settings follow the texts of their variables. Each variable has its grammar, and a text outside
it counts as none. Whatever the variables are, the bound on array parts is one that tables can
keep. -/

namespace TaggedRuntime.Config

/-! ### Grammars -/

/-- A natural number in decimal. There may be zeros in front. -/
structure Numeral (text : List Char) (n : ℕ) : Prop where
  some : text ≠ []
  digits : ∀ c ∈ text, c.isDigit = true
  value : Nat.ofDigitChars 10 text 0 = n

/-- A positive number of 32 bits: white space around it, and a plus sign in front or none. -/
structure Positive (text : String) (n : ℕ) : Prop where
  spelled : ∃ sign digits, Text.Trimmed text.toList (sign ++ digits) ∧
    (sign = [] ∨ sign = ['+']) ∧ Numeral digits n
  positive : 1 ≤ n
  fits : n < 2 ^ 32

/-- The spellings of a truth value. -/
def spellings : Bool → List String
  | true => ["1", "true", "TRUE", "yes", "YES"]
  | false => ["0", "false", "FALSE", "no", "NO"]

/-- The loop over digits computes the number that they write in the library's sense. -/
theorem foldl_digits (digits : List Char) :
    digits.foldl (fun n c => n * 10 + (c.toNat - '0'.toNat)) 0 = Nat.ofDigitChars 10 digits 0 := by
  simp only [Nat.ofDigitChars, Nat.mul_comm]

/-- Digits are read as the number that they write. A text without digits is refused, and so is a
number that does not fit into 32 bits; zeros in front do no harm. -/
theorem readDigits_eq_some_iff {digits : List Char} {n : ℕ} :
    readDigits digits = some n ↔ Numeral digits n ∧ n < 2 ^ 32 := by
  unfold readDigits
  rw [foldl_digits]
  constructor
  · intro hRead
    obtain ⟨hShape, hRead⟩ := Option.ite_none_left_eq_some.mp hRead
    obtain ⟨hFits, hValue⟩ := Option.ite_none_right_eq_some.mp hRead
    rw [Bool.or_eq_true, not_or, List.isEmpty_iff, Bool.not_eq_true', Bool.not_eq_false,
      List.all_eq_true] at hShape
    rw [Option.some.injEq] at hValue
    exact ⟨⟨hShape.1, hShape.2, hValue⟩, hValue ▸ hFits⟩
  · rintro ⟨⟨hSome, hDigits, rfl⟩, hFits⟩
    have hEmpty : digits.isEmpty = false := List.isEmpty_eq_false_iff.mpr hSome
    have hAll : digits.all Char.isDigit = true := List.all_eq_true.mpr hDigits
    rw [hEmpty, hAll, if_neg (by decide)]
    exact if_pos hFits

/-- Positive numbers are read with blanks around them and a plus sign in front. The reader accepts
what the grammar says and nothing else. -/
theorem readPositive_eq_some_iff {text : String} {n : ℕ} :
    readPositive text = some n ↔ Positive text n := by
  unfold readPositive
  rw [Option.filter_eq_some_iff, readDigits_eq_some_iff, decide_eq_true_iff]
  constructor
  · rintro ⟨⟨hNumeral, hFits⟩, hPositive⟩
    refine ⟨?_, hPositive, hFits⟩
    split at hNumeral
    next rest hTrim => exact ⟨['+'], rest, Text.trim_eq_iff.mp hTrim, .inr rfl, hNumeral⟩
    next => exact ⟨[], _, Text.trimmed_trim _, .inl rfl, hNumeral⟩
  · rintro ⟨⟨sign, digits, hTrimmed, hSign, hNumeral⟩, hPositive, hFits⟩
    refine ⟨⟨?_, hFits⟩, hPositive⟩
    rw [Text.trim_eq_iff.mpr hTrimmed]
    rcases hSign with rfl | rfl
    · rw [List.nil_append]
      split
      next rest =>
        -- A plus sign is no digit.
        have hPlus := hNumeral.digits '+' List.mem_cons_self
        exact absurd hPlus (by decide)
      next => exact hNumeral
    · exact hNumeral

/-- A truth value is one of its five spellings. A text with blanks around one is none. -/
theorem readBool_eq_some_iff {text : String} {b : Bool} :
    readBool text = some b ↔ text ∈ spellings b := by
  have hApart : ∀ t ∈ spellings true, t ∉ spellings false := by decide
  change (if (spellings true).contains text then some true
    else if (spellings false).contains text then some false else none) = some b ↔ _
  simp only [List.contains_iff_mem]
  by_cases hTrue : text ∈ spellings true
  · rw [if_pos hTrue]
    cases b with
    | true => exact iff_of_true rfl hTrue
    | false => exact iff_of_false nofun (hApart text hTrue)
  rw [if_neg hTrue]
  by_cases hFalse : text ∈ spellings false
  · rw [if_pos hFalse]
    cases b with
    | true => exact iff_of_false nofun hTrue
    | false => exact iff_of_true rfl hFalse
  · rw [if_neg hFalse]
    cases b with
    | true => exact iff_of_false nofun hTrue
    | false => exact iff_of_false nofun hFalse

/-! ### Settings -/

section Setting

variable {α β : Type} {denotes : String → α → Prop} {fallback value : α} {entry : Option String}

/-- A setting follows the entry of its variable: it is what the text denotes, and the fallback
where there is no text or the text denotes nothing. -/
structure Follows (denotes : String → α → Prop) (fallback : α) (entry : Option String)
    (value : α) : Prop where
  denoted : ∀ text a, entry = some text → denotes text a → value = a
  otherwise : (∀ text a, entry = some text → ¬denotes text a) → value = fallback

/-- A reader that is exact for a grammar makes a setting that follows it. One lemma covers a
variable that is not set, one that is set to no text of the grammar, and one that is. -/
theorem follows_bind {read : String → Option α} (hRead : ∀ text a, read text = some a ↔ denotes text a)
    (fallback : α) (entry : Option String) :
    Follows denotes fallback entry ((entry.bind read).getD fallback) := by
  refine ⟨?_, fun hNone => ?_⟩
  · rintro text a rfl hDenotes
    rw [Option.bind_some, (hRead text a).mpr hDenotes, Option.getD_some]
  · cases hEntry : entry.bind read with
    | none => rfl
    | some a =>
        obtain ⟨text, hText, hSome⟩ := Option.bind_eq_some_iff.mp hEntry
        exact absurd ((hRead text a).mp hSome) (hNone text a hText)

theorem Follows.map (f : α → β) (hFollows : Follows denotes fallback entry value) :
    Follows (fun text b => ∃ a, denotes text a ∧ b = f a) (f fallback) entry (f value) := by
  refine ⟨?_, fun hNone => ?_⟩
  · rintro text b hText ⟨a, hDenotes, rfl⟩
    rw [hFollows.denoted text a hText hDenotes]
  · rw [hFollows.otherwise fun text a hText hDenotes => hNone text (f a) hText ⟨a, hDenotes, rfl⟩]

/-- What holds of all that a text can denote and of the fallback holds of the setting. -/
theorem Follows.ensures {p : α → Prop} (hFollows : Follows denotes fallback entry value)
    (hDenoted : ∀ text a, denotes text a → p a) (hFallback : p fallback) : p value := by
  by_cases hSome : ∃ text a, entry = some text ∧ denotes text a
  · obtain ⟨text, a, hText, hDenotes⟩ := hSome
    rw [hFollows.denoted text a hText hDenotes]
    exact hDenoted text a hDenotes
  · rw [hFollows.otherwise fun text a hText hDenotes => hSome ⟨text, a, hText, hDenotes⟩]
    exact hFallback

end Setting

variable (lookup : String → Option String)

/-- A number past what a table can hold counts as that. -/
theorem maxArrayBits_follows :
    Follows (fun text bits => ∃ n, Positive text n ∧ bits = min n 31) 31
      (lookup "TVRT_MAX_ARRAY_BITS") (ofLookup lookup).maxArrayBits :=
  (follows_bind (fun _ _ => readPositive_eq_some_iff) 31 _).map (min · 31)

theorem inlineCache_follows :
    Follows (fun text b => text ∈ spellings b) true (lookup "TVRT_INLINE_CACHE")
      (ofLookup lookup).inlineCache :=
  follows_bind (fun _ _ => readBool_eq_some_iff) true _

theorem trace_follows :
    Follows (fun text b => text ∈ spellings b) false (lookup "TVRT_TRACE")
      (ofLookup lookup).trace :=
  follows_bind (fun _ _ => readBool_eq_some_iff) false _

/-- The bound is one at least. Zero is no text of its grammar, so zero gives the default. -/
theorem maxArrayBits_pos : 1 ≤ (ofLookup lookup).maxArrayBits := by
  refine (maxArrayBits_follows lookup).ensures ?_ (by decide)
  rintro text bits ⟨n, hPositive, rfl⟩
  exact Nat.le_min.mpr ⟨hPositive.positive, by decide⟩

theorem maxArrayBits_le : (ofLookup lookup).maxArrayBits ≤ Limits.arrayBits :=
  Nat.min_le_right ..

/-- The size that goes with the bound is within the largest one of the host. -/
theorem maxArraySize_le : (ofLookup lookup).maxArraySize ≤ twoPow Limits.arrayBits :=
  twoPow_le_twoPow (maxArrayBits_le lookup)

/-- The size is a word: a shift of the word one gives it. The exponent is less than the width, so no
bit is lost. -/
theorem shift_maxArrayBits :
    ((1 : UInt64) <<< UInt64.ofNat (ofLookup lookup).maxArrayBits).toNat =
      (ofLookup lookup).maxArraySize := by
  have hLe : (ofLookup lookup).maxArrayBits ≤ 31 := maxArrayBits_le lookup
  have hAmount : (UInt64.ofNat (ofLookup lookup).maxArrayBits).toNat % 64 =
      (ofLookup lookup).maxArrayBits := by
    rw [UInt64.toNat_ofNat']
    omega
  have hFits : 2 ^ (ofLookup lookup).maxArrayBits < 2 ^ 64 :=
    Nat.pow_lt_pow_right (by decide) (by omega)
  have hOne : (1 : UInt64).toNat = 1 := rfl
  rw [UInt64.toNat_shiftLeft, hAmount, hOne, Nat.one_shiftLeft, Nat.mod_eq_of_lt hFits]
  rfl

/-- Each setting is what its variable's text stands for in its grammar, and its default in every
other case. The bound on array parts is between one and what tables can hold, whatever the
variables are, and no other variable has a say in a setting. -/
theorem ofLookup_exact :
    Follows (fun text bits => ∃ n, Positive text n ∧ bits = min n 31) 31
      (lookup "TVRT_MAX_ARRAY_BITS") (ofLookup lookup).maxArrayBits ∧
    (1 ≤ (ofLookup lookup).maxArrayBits ∧ (ofLookup lookup).maxArrayBits ≤ 31) ∧
    (((1 : UInt64) <<< UInt64.ofNat (ofLookup lookup).maxArrayBits).toNat =
        (ofLookup lookup).maxArraySize ∧
      (ofLookup lookup).maxArraySize ≤ twoPow Limits.arrayBits ∧
      twoPow Limits.arrayBits = 2 ^ 31) ∧
    Follows (fun text b => text ∈ spellings b) true (lookup "TVRT_INLINE_CACHE")
      (ofLookup lookup).inlineCache ∧
    Follows (fun text b => text ∈ spellings b) false (lookup "TVRT_TRACE")
      (ofLookup lookup).trace ∧
    ∀ other : String → Option String,
      (other "TVRT_MAX_ARRAY_BITS" = lookup "TVRT_MAX_ARRAY_BITS" →
        (ofLookup other).maxArrayBits = (ofLookup lookup).maxArrayBits) ∧
      (other "TVRT_INLINE_CACHE" = lookup "TVRT_INLINE_CACHE" →
        (ofLookup other).inlineCache = (ofLookup lookup).inlineCache) ∧
      (other "TVRT_TRACE" = lookup "TVRT_TRACE" →
        (ofLookup other).trace = (ofLookup lookup).trace) := by
  refine ⟨maxArrayBits_follows lookup, ⟨maxArrayBits_pos lookup, maxArrayBits_le lookup⟩,
    ⟨shift_maxArrayBits lookup, maxArraySize_le lookup, rfl⟩, inlineCache_follows lookup,
    trace_follows lookup, fun other => ⟨fun hSame => ?_, fun hSame => ?_, fun hSame => ?_⟩⟩
  all_goals simp only [ofLookup, hSame]

/-- A number with everything around it that may be there, and a truth value with a blank that may
not. -/
private def padded (name : String) : Option String :=
  if name = "TVRT_MAX_ARRAY_BITS" then some "\u3000+0012\t"
  else if name = "TVRT_INLINE_CACHE" then some " no"
  else none

theorem ofLookup_exact_padded : (ofLookup padded).maxArrayBits = 12 ∧
    (ofLookup padded).inlineCache = true ∧
    (padded "TVRT_TRACE" = none ∧ (ofLookup padded).trace = (ofLookup fun _ => none).trace) := by
  obtain ⟨hBits, -, -, hCache, -, hOther⟩ := ofLookup_exact padded
  have hTrimmed : Text.Trimmed "\u3000+0012\t".toList ['+', '0', '0', '1', '2'] := by
    refine ⟨⟨['\u3000'], ['\t'], rfl, ?_, ?_⟩, ?_, ?_⟩ <;> simp [Text.whiteSpace]
  have hNumeral : Numeral ['0', '0', '1', '2'] 12 := ⟨List.cons_ne_nil _ _, by simp, rfl⟩
  refine ⟨?_, ?_, rfl, ((hOther fun _ => none).2.2 rfl).symm⟩
  · exact hBits.denoted _ 12 rfl ⟨12, ⟨⟨['+'], _, hTrimmed, .inr rfl, hNumeral⟩, by decide, by decide⟩,
      rfl⟩
  · refine hCache.otherwise ?_
    rintro text b hText hSpelled
    cases hText
    exact absurd hSpelled (by cases b <;> decide)

end TaggedRuntime.Config
