import Mathlib.Data.List.DropRight
import TaggedRuntime.Text

/-! Trimming takes the white space at both ends of a text, all of it and nothing else. -/

namespace TaggedRuntime.Text

variable {text core : List Char} {c : Char}

/-- The code points with the property `White_Space`, one by one. -/
def whiteSpace : List Nat :=
  [0x9, 0xa, 0xb, 0xc, 0xd, 0x20, 0x85, 0xa0, 0x1680, 0x2000, 0x2001, 0x2002, 0x2003, 0x2004,
    0x2005, 0x2006, 0x2007, 0x2008, 0x2009, 0x200a, 0x2028, 0x2029, 0x202f, 0x205f, 0x3000]

/-- The blanks are the characters of the Unicode property, listed by their numbers. -/
theorem isBlank_iff : isBlank c = true ↔ c.toNat ∈ whiteSpace := by
  simp only [isBlank, blankRanges, whiteSpace, List.any_cons, List.any_nil, List.mem_cons,
    List.not_mem_nil, Bool.or_eq_true, Bool.and_eq_true, decide_eq_true_eq, Bool.false_eq_true,
    or_false]
  omega

theorem isBlank_eq_false_iff : isBlank c = false ↔ c.toNat ∉ whiteSpace := by
  rw [← isBlank_iff, Bool.not_eq_true]

/-- What a text is without the white space at its ends. -/
structure Trimmed (text core : List Char) : Prop where
  split : ∃ before after, text = before ++ core ++ after ∧
    (∀ c ∈ before, c.toNat ∈ whiteSpace) ∧ ∀ c ∈ after, c.toNat ∈ whiteSpace
  first : ∀ c ∈ core.head?, c.toNat ∉ whiteSpace
  last : ∀ c ∈ core.getLast?, c.toNat ∉ whiteSpace

theorem trim_eq (text : List Char) :
    trim text = (text.dropWhile isBlank).rdropWhile isBlank := rfl

/-- A scan for blanks stops behind them. -/
theorem dropWhile_blanks {blanks rest : List Char} (hBlanks : ∀ c ∈ blanks, c.toNat ∈ whiteSpace)
    (hRest : ∀ c ∈ rest.head?, c.toNat ∉ whiteSpace) :
    (blanks ++ rest).dropWhile isBlank = rest := by
  rw [List.dropWhile_append_of_pos fun c hc => isBlank_iff.mpr (hBlanks c hc)]
  cases rest with
  | nil => rfl
  | cons c rest => rw [List.dropWhile_cons_of_neg (mt isBlank_iff.mp (hRest c rfl))]

/-- What is left starts and ends with something other than a blank, and only blanks were taken off.
A text of blanks leaves nothing. -/
theorem trimmed_trim (text : List Char) : Trimmed text (trim text) := by
  refine ⟨⟨text.takeWhile isBlank, (text.dropWhile isBlank).rtakeWhile isBlank, ?_, ?_, ?_⟩, ?_, ?_⟩
  · rw [trim_eq, List.append_assoc, List.rdropWhile_append_rtakeWhile,
      List.takeWhile_append_dropWhile]
  · exact fun c hc => isBlank_iff.mp (List.mem_takeWhile_imp hc)
  · exact fun c hc => isBlank_iff.mp (List.mem_rtakeWhile_imp hc)
  · intro c hc
    obtain ⟨after, hAfter⟩ := List.rdropWhile_prefix isBlank (text.dropWhile isBlank)
    have hFirst := List.head?_dropWhile_not isBlank text
    rw [← hAfter, ← trim_eq, List.mem_head?_append_of_mem_head? hc] at hFirst
    exact isBlank_eq_false_iff.mp hFirst
  · intro c hc
    have hLast := List.head?_dropWhile_not isBlank (text.dropWhile isBlank).reverse
    rw [trim, List.getLast?_reverse, Option.mem_def] at hc
    rw [hc] at hLast
    exact isBlank_eq_false_iff.mp hLast

/-- There is one way to trim, so a text that is described as trimmed is what trimming gives. -/
theorem Trimmed.trim_eq (hTrimmed : Trimmed text core) : trim text = core := by
  obtain ⟨⟨before, after, rfl, hBefore, hAfter⟩, hFirst, hLast⟩ := hTrimmed
  have hBack : (core ++ after).rdropWhile isBlank = core := by
    rw [List.rdropWhile, List.reverse_append, dropWhile_blanks, List.reverse_reverse]
    · exact fun c hc => hAfter c (List.mem_reverse.mp hc)
    · rwa [List.head?_reverse]
  rw [Text.trim_eq, List.append_assoc]
  cases core with
  | nil =>
      -- Where nothing is left, the scan from the front has gone through both ends.
      have hAll : ∀ c ∈ before ++ after, c.toNat ∈ whiteSpace :=
        List.forall_mem_append.mpr ⟨hBefore, hAfter⟩
      have hNone : (before ++ after).dropWhile isBlank = [] :=
        List.dropWhile_eq_nil_iff.mpr fun c hc => isBlank_iff.mpr (hAll c hc)
      rw [List.nil_append, hNone, List.rdropWhile_nil]
  | cons c rest =>
      have hFront : (before ++ (c :: rest ++ after)).dropWhile isBlank = c :: rest ++ after :=
        dropWhile_blanks hBefore hFirst
      rw [hFront, hBack]

/-- Trimming gives a text exactly if it is the other without the blanks at both ends. -/
theorem trim_eq_iff : trim text = core ↔ Trimmed text core :=
  ⟨fun hTrim => hTrim ▸ trimmed_trim text, Trimmed.trim_eq⟩

end TaggedRuntime.Text
