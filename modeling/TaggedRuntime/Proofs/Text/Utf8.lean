import Mathlib.Tactic.Ring
import TaggedRuntime.Text

/-! Text against its bytes. The decoder reads the bytes of a text as that text, and
reads as text only the bytes of one. -/

namespace TaggedRuntime.Text

/-! ### Lead bytes -/

/-- What a lead byte announces, by its number. The bounds of the second byte leave out surrogates,
overlong forms and what is past the last character. -/
theorem lead?_eq (b : UInt8) : lead? b =
    if b.toNat < 0x80 then some ⟨0, b.toNat, 0x80, 0xbf⟩
    else if b.toNat < 0xc2 then none
    else if b.toNat < 0xe0 then some ⟨1, b.toNat - 0xc0, 0x80, 0xbf⟩
    else if b.toNat < 0xf0 then some ⟨2, b.toNat - 0xe0,
      if b.toNat = 0xe0 then 0xa0 else 0x80, if b.toNat = 0xed then 0x9f else 0xbf⟩
    else if b.toNat < 0xf5 then some ⟨3, b.toNat - 0xf0,
      if b.toNat = 0xf0 then 0x90 else 0x80, if b.toNat = 0xf4 then 0x8f else 0xbf⟩
    else none := by
  simp only [lead?, UInt8.lt_iff_toNat_lt, ← UInt8.toNat_inj, UInt8.reduceToNat]
  generalize b.toNat = n
  rcases Nat.lt_or_ge n 0x80 with hOne | hOne
  · simp only [hOne, if_true]
  rcases Nat.lt_or_ge n 0xc2 with hTail | hTail
  · simp (disch := omega) only [if_pos, if_neg]
  rcases Nat.lt_or_ge n 0xe0 with hTwo | hTwo
  · simp (disch := omega) only [if_pos, if_neg]
  rcases Nat.lt_or_ge n 0xf0 with hThree | hThree
  · by_cases hFirst : n = 0xe0
    · subst hFirst; rfl
    by_cases hSurrogate : n = 0xed
    · subst hSurrogate; rfl
    simp (disch := omega) only [if_pos, if_neg]
  rcases Nat.lt_or_ge n 0xf5 with hFour | hFour
  · by_cases hFirst : n = 0xf0
    · subst hFirst; rfl
    by_cases hLast : n = 0xf4
    · subst hLast; rfl
    simp (disch := omega) only [if_pos, if_neg]
  · simp (disch := omega) only [if_neg]

/-! ### Runs of the decoder -/

theorem run_cons (q : Decoder) (b : UInt8) (rest : Bytes) :
    q.run (b :: rest) = (q.step b).1 ++ (q.step b).2.run rest := by
  cases q <;> rfl

/-- A lead byte is a character by itself, or announces how many bytes follow. -/
theorem step_start {b : UInt8} {lead : Lead} (h : lead? b = some lead) :
    Decoder.start.step b =
      if lead.following = 0 then ([some (Char.ofNat lead.bits)], .start)
      else ([], .inside lead.following lead.bits lead.low lead.high) := by
  simp only [Decoder.step, Decoder.first, h]

/-- A byte within its bounds adds six bits, and the last one ends the character. -/
theorem step_inside {owed bits : Nat} {low high b : UInt8} (hLow : low ≤ b) (hHigh : b ≤ high) :
    (Decoder.inside owed bits low high).step b =
      if owed ≤ 1 then ([some (Char.ofNat (bits * 64 + (b.toNat - 0x80)))], .start)
      else ([], .inside (owed - 1) (bits * 64 + (b.toNat - 0x80)) 0x80 0xbf) := by
  simp [Decoder.step, hLow, hHigh]

theorem run_lead {b : UInt8} {lead : Lead} (h : lead? b = some lead) (hMore : lead.following ≠ 0)
    (rest : Bytes) : Decoder.start.run (b :: rest) =
      (Decoder.inside lead.following lead.bits lead.low lead.high).run rest := by
  rw [run_cons, step_start h, if_neg hMore]
  rfl

theorem run_inside {owed bits : Nat} {low high b : UInt8} (hIn : low ≤ b ∧ b ≤ high)
    (rest : Bytes) : (Decoder.inside (owed + 1) bits low high).run (b :: rest) =
      if owed = 0 then some (Char.ofNat (bits * 64 + (b.toNat - 0x80))) :: Decoder.start.run rest
      else (Decoder.inside owed (bits * 64 + (b.toNat - 0x80)) 0x80 0xbf).run rest := by
  rw [run_cons, step_inside hIn.1 hIn.2]
  cases owed <;> rfl

/-- Every way to finish what a decoder stands inside of spells a character, the bytes `before`
being those of it that were read. -/
def Owes (before : Bytes) : (owed bits : Nat) → (low high : UInt8) → Prop
  | 0, bits, _, _ => String.utf8EncodeChar (Char.ofNat bits) = before
  | owed + 1, bits, low, high => ∀ b, low ≤ b → b ≤ high →
      Owes (before ++ [b]) owed (bits * 64 + (b.toNat - 0x80)) 0x80 0xbf

theorem toNat_ofNat {v : Nat} (hValid : v.isValidChar) : (Char.ofNat v).val.toNat = v := by
  unfold Char.ofNat
  rw [dif_pos hValid]
  rfl

theorem ofNat_eq {n : Nat} {b : UInt8} (h : n = b.toNat) : UInt8.ofNat n = b := by
  rw [h, UInt8.ofNat_toNat]

/-- The second bytes of a character of three bytes. -/
theorem second_of_three {b c : UInt8} :
    (if b.toNat = 0xe0 then 0xa0 else 0x80 : UInt8) ≤ c ∧
        c ≤ (if b.toNat = 0xed then 0x9f else 0xbf : UInt8) ↔
      0x80 ≤ c.toNat ∧ c.toNat ≤ 0xbf ∧ (b.toNat = 0xe0 → 0xa0 ≤ c.toNat) ∧
        (b.toNat = 0xed → c.toNat ≤ 0x9f) := by
  simp only [UInt8.le_iff_toNat_le, apply_ite UInt8.toNat, UInt8.reduceToNat]
  split_ifs <;> omega

/-- The second bytes of a character of four bytes. -/
theorem second_of_four {b c : UInt8} :
    (if b.toNat = 0xf0 then 0x90 else 0x80 : UInt8) ≤ c ∧
        c ≤ (if b.toNat = 0xf4 then 0x8f else 0xbf : UInt8) ↔
      0x80 ≤ c.toNat ∧ c.toNat ≤ 0xbf ∧ (b.toNat = 0xf0 → 0x90 ≤ c.toNat) ∧
        (b.toNat = 0xf4 → c.toNat ≤ 0x8f) := by
  simp only [UInt8.le_iff_toNat_le, apply_ite UInt8.toNat, UInt8.reduceToNat]
  split_ifs <;> omega

theorem continuation {b : UInt8} :
    0x80 ≤ b ∧ b ≤ 0xbf ↔ 0x80 ≤ b.toNat ∧ b.toNat ≤ 0xbf := by
  simp only [UInt8.le_iff_toNat_le, UInt8.reduceToNat]

/-- A lead byte leaves the decoder with the bytes that it announced to come. The bits read so far
and the bounds of the next byte say which characters it can still become. -/
theorem owes_lead {b : UInt8} {lead : Lead} (h : lead? b = some lead) :
    Owes [b] lead.following lead.bits lead.low lead.high := by
  rw [lead?_eq] at h
  split at h
  next hOne =>
    cases h
    have hNumber := toNat_ofNat (v := b.toNat) (Or.inl (by omega))
    simp only [Owes, String.utf8EncodeChar, hNumber]
    rw [if_pos (by omega), ofNat_eq rfl]
  split at h
  next => cases h
  split at h
  next hTwo =>
    cases h
    intro c hLow hHigh
    obtain ⟨hc, hc'⟩ := continuation.mp ⟨hLow, hHigh⟩
    have hNumber := toNat_ofNat (v := (b.toNat - 0xc0) * 64 + (c.toNat - 0x80))
      (Or.inl (by omega))
    simp only [Owes, String.utf8EncodeChar, hNumber]
    rw [if_neg (by omega), if_pos (by omega), ofNat_eq (b := b) (by omega),
      ofNat_eq (b := c) (by omega)]
    rfl
  split at h
  next hThree =>
    cases h
    intro c hLow hHigh d hLow' hHigh'
    obtain ⟨hc, hc', hFirst, hSurrogate⟩ := second_of_three.mp ⟨hLow, hHigh⟩
    obtain ⟨hd, hd'⟩ := continuation.mp ⟨hLow', hHigh'⟩
    have hNumber := toNat_ofNat
      (v := ((b.toNat - 0xe0) * 64 + (c.toNat - 0x80)) * 64 + (d.toNat - 0x80))
      (by unfold Nat.isValidChar; omega)
    simp only [Owes, String.utf8EncodeChar, hNumber]
    rw [if_neg (by omega), if_neg (by omega), if_pos (by omega), ofNat_eq (b := b) (by omega),
      ofNat_eq (b := c) (by omega), ofNat_eq (b := d) (by omega)]
    rfl
  split at h
  next hFour =>
    cases h
    intro c hLow hHigh d hLow' hHigh' e hLow'' hHigh''
    obtain ⟨hc, hc', hFirst, hLast⟩ := second_of_four.mp ⟨hLow, hHigh⟩
    obtain ⟨hd, hd'⟩ := continuation.mp ⟨hLow', hHigh'⟩
    obtain ⟨he, he'⟩ := continuation.mp ⟨hLow'', hHigh''⟩
    have hNumber := toNat_ofNat
      (v := (((b.toNat - 0xf0) * 64 + (c.toNat - 0x80)) * 64 + (d.toNat - 0x80)) * 64 +
        (e.toNat - 0x80)) (by unfold Nat.isValidChar; omega)
    simp only [Owes, String.utf8EncodeChar, hNumber]
    rw [if_neg (by omega), if_neg (by omega), if_neg (by omega), ofNat_eq (b := b) (by omega),
      ofNat_eq (b := c) (by omega), ofNat_eq (b := d) (by omega), ofNat_eq (b := e) (by omega)]
    rfl
  next => cases h

/-! ### Bytes that are text -/

/-- What a decoder has read of the character that it stands inside of. -/
def Pending (before : Bytes) : Decoder → Prop
  | .start => before = []
  | .inside owed bits low high => 0 < owed ∧ Owes before owed bits low high

/-- A byte is malformed, is one more of a character, or ends one. What was read before is the start
of one character, never more. -/
theorem Pending.step {before : Bytes} {q : Decoder} (hPending : Pending before q) (b : UInt8) :
    none ∈ (q.step b).1 ∨
    ((q.step b).1 = [] ∧ Pending (before ++ [b]) (q.step b).2) ∨
    ∃ c, q.step b = ([some c], .start) ∧ String.utf8EncodeChar c = before ++ [b] := by
  cases q with
  | start =>
      rw [show before = [] from hPending, List.nil_append]
      cases hLead : lead? b with
      | none => exact Or.inl (by simp [Decoder.step, Decoder.first, hLead])
      | some lead =>
          have hOwes := owes_lead hLead
          rw [step_start hLead]
          cases hFollowing : lead.following with
          | zero =>
              rw [hFollowing] at hOwes
              exact Or.inr (Or.inr ⟨_, if_pos rfl, hOwes⟩)
          | succ n =>
              rw [hFollowing] at hOwes
              exact Or.inr (Or.inl ⟨by simp, by simpa [Pending] using hOwes⟩)
  | inside owed bits low high =>
      obtain ⟨hOwed, hOwes⟩ := hPending
      obtain ⟨n, rfl⟩ := Nat.exists_eq_succ_of_ne_zero (Nat.ne_of_gt hOwed)
      by_cases hIn : low ≤ b ∧ b ≤ high
      · have hNext := hOwes b hIn.1 hIn.2
        rw [step_inside hIn.1 hIn.2]
        cases n with
        | zero => exact Or.inr (Or.inr ⟨_, if_pos (Nat.le_refl 1), hNext⟩)
        | succ n => exact Or.inr (Or.inl ⟨by simp, by simpa [Pending] using hNext⟩)
      · exact Or.inl (by simp [Decoder.step, hIn])

/-- Bytes that are read without a malformed piece are those of the characters read. The induction is
on the bytes, with what is pending generalised. -/
theorem spells_of_run {bytes before : Bytes} {q : Decoder} {text : List Char}
    (hPending : Pending before q) (hRun : q.run bytes = text.map some) :
    before ++ bytes = text.flatMap String.utf8EncodeChar := by
  induction bytes generalizing q before text with
  | nil =>
      cases q with
      | start =>
          have hEmpty : text = [] := List.map_eq_nil_iff.mp hRun.symm
          rw [hEmpty, show before = [] from hPending]
          rfl
      | inside owed bits low high => cases text <;> simp [Decoder.run] at hRun
  | cons b rest ih =>
      rw [run_cons] at hRun
      rcases hPending.step b with hMalformed | ⟨hMore, hNext⟩ | ⟨c, hEnd, hBytes⟩
      · have hMem : none ∈ text.map some := hRun ▸ List.mem_append_left _ hMalformed
        simp at hMem
      · rw [hMore, List.nil_append] at hRun
        rw [List.append_cons]
        exact ih hNext hRun
      · rw [hEnd] at hRun
        cases text with
        | nil => cases hRun
        | cons d text =>
            obtain ⟨hChar, hRest⟩ := List.cons.inj hRun
            cases hChar
            rw [List.append_cons, ← hBytes, List.flatMap_cons,
              ← ih (show Pending [] .start from rfl) hRest, List.nil_append]

/-- The bytes of a character are read as it. There is one case for each length of the encoding. -/
theorem run_utf8EncodeChar (c : Char) (rest : Bytes) :
    Decoder.start.run (String.utf8EncodeChar c ++ rest) = some c :: Decoder.start.run rest := by
  have hChar : Char.ofNat c.val.toNat = c := Char.ofNat_toNat c
  have hValid : c.val.toNat.isValidChar := c.valid
  simp only [String.utf8EncodeChar]
  generalize c.val.toNat = v at hChar hValid
  have hNat {n : Nat} (hn : n < 256) : (UInt8.ofNat n).toNat = n := UInt8.toNat_ofNat_of_lt' hn
  unfold Nat.isValidChar at hValid
  split
  next hOne =>
    have hLead : lead? (UInt8.ofNat v) = some ⟨0, v, 0x80, 0xbf⟩ := by
      rw [lead?_eq, hNat (by omega), if_pos (by omega)]
    rw [List.singleton_append, run_cons, step_start hLead, if_pos rfl, hChar]
    rfl
  split
  next hTwo =>
    have hb := hNat (show v / 64 % 0x20 + 0xc0 < 256 by omega)
    have hc := hNat (show v % 64 + 0x80 < 256 by omega)
    generalize UInt8.ofNat (v / 64 % 0x20 + 0xc0) = b at hb
    generalize UInt8.ofNat (v % 64 + 0x80) = c' at hc
    have hLead : lead? b = some ⟨1, b.toNat - 0xc0, 0x80, 0xbf⟩ := by
      rw [lead?_eq, if_neg (by omega), if_neg (by omega), if_pos (by omega)]
    have hBits : (b.toNat - 0xc0) * 64 + (c'.toNat - 0x80) = v := by omega
    simp only [List.cons_append, List.nil_append]
    rw [run_lead hLead (by simp), run_inside (continuation.mpr (by omega)), if_pos rfl, hBits,
      hChar]
  split
  next hThree =>
    have hb := hNat (show v / 4096 % 0x10 + 0xe0 < 256 by omega)
    have hc := hNat (show v / 64 % 64 + 0x80 < 256 by omega)
    have hd := hNat (show v % 64 + 0x80 < 256 by omega)
    generalize UInt8.ofNat (v / 4096 % 0x10 + 0xe0) = b at hb
    generalize UInt8.ofNat (v / 64 % 64 + 0x80) = c' at hc
    generalize UInt8.ofNat (v % 64 + 0x80) = d at hd
    have hLead : lead? b = some ⟨2, b.toNat - 0xe0,
        if b.toNat = 0xe0 then 0xa0 else 0x80, if b.toNat = 0xed then 0x9f else 0xbf⟩ := by
      rw [lead?_eq, if_neg (by omega), if_neg (by omega), if_neg (by omega), if_pos (by omega)]
    have hBits : ((b.toNat - 0xe0) * 64 + (c'.toNat - 0x80)) * 64 + (d.toNat - 0x80) = v := by
      omega
    simp only [List.cons_append, List.nil_append]
    rw [run_lead hLead (by simp), run_inside (second_of_three.mpr (by omega)),
      if_neg (by decide), run_inside (continuation.mpr (by omega)), if_pos rfl, hBits, hChar]
  next hFour =>
    have hb := hNat (show v / 262144 % 8 + 0xf0 < 256 by omega)
    have hc := hNat (show v / 4096 % 64 + 0x80 < 256 by omega)
    have hd := hNat (show v / 64 % 64 + 0x80 < 256 by omega)
    have he := hNat (show v % 64 + 0x80 < 256 by omega)
    generalize UInt8.ofNat (v / 262144 % 8 + 0xf0) = b at hb
    generalize UInt8.ofNat (v / 4096 % 64 + 0x80) = c' at hc
    generalize UInt8.ofNat (v / 64 % 64 + 0x80) = d at hd
    generalize UInt8.ofNat (v % 64 + 0x80) = e at he
    have hLead : lead? b = some ⟨3, b.toNat - 0xf0,
        if b.toNat = 0xf0 then 0x90 else 0x80, if b.toNat = 0xf4 then 0x8f else 0xbf⟩ := by
      rw [lead?_eq, if_neg (by omega), if_neg (by omega), if_neg (by omega), if_neg (by omega),
        if_pos (by omega)]
    have hBits : (((b.toNat - 0xf0) * 64 + (c'.toNat - 0x80)) * 64 + (d.toNat - 0x80)) * 64 +
        (e.toNat - 0x80) = v := by omega
    simp only [List.cons_append, List.nil_append]
    rw [run_lead hLead (by simp), run_inside (second_of_four.mpr (by omega)),
      if_neg (by decide), run_inside (continuation.mpr (by omega)), if_neg (by decide),
      run_inside (continuation.mpr (by omega)), if_pos rfl, hBits, hChar]

/-- The bytes of a text are read as its characters. The induction is on the text, with one lemma for
a character. -/
theorem run_utf8Encode (text : List Char) :
    Decoder.start.run (text.flatMap String.utf8EncodeChar) = text.map some := by
  induction text with
  | nil => rfl
  | cons c text ih => rw [List.flatMap_cons, run_utf8EncodeChar, ih, List.map_cons]

theorem toList_eq (bytes : ByteArray) : bytes.toList = bytes.data.toList := by
  have hLoop (i : Nat) (read : List UInt8) :
      ByteArray.toList.loop bytes i read = read.reverse ++ bytes.data.toList.drop i := by
    fun_induction ByteArray.toList.loop bytes i read with
    | case1 i read hi ih =>
        have hIn : i < bytes.data.toList.length := hi
        have hByte : bytes.get! i = bytes.data.toList[i] := by
          rw [Array.getElem_toList]
          exact getElem!_pos bytes.data i hi
        rw [ih, List.drop_eq_getElem_cons hIn, List.reverse_cons, List.append_assoc, hByte]
        rfl
    | case2 i read hi =>
        rw [List.drop_eq_nil_of_le (Nat.le_of_not_lt hi), List.append_nil]
  exact hLoop 0 []

theorem toBytes_ofList (text : List Char) :
    toBytes (String.ofList text) = text.flatMap String.utf8EncodeChar := by
  rw [toBytes, toList_eq]
  exact List.toList_data_toByteArray

/-- A list of results is one result if none is missing. -/
theorem mapM_id_eq_some_iff {α : Type} (l : List (Option α)) (xs : List α) :
    l.mapM id = some xs ↔ l = xs.map some := by
  induction l generalizing xs with
  | nil => cases xs <;> simp
  | cons a l ih =>
      cases a with
      | none => cases xs <;> simp [List.mapM_cons]
      | some a => cases xs <;> simp [List.mapM_cons, Option.bind_eq_some_iff, ih, and_comm]

/-- Bytes are read as a text exactly when they are the bytes of that text. No two texts have the
same bytes, so the reader is the inverse of the writer. -/
theorem decode?_eq_some_iff (bytes : Bytes) (s : String) :
    decode? bytes = some s ↔ toBytes s = bytes := by
  rw [decode?, Option.map_eq_some_iff]
  constructor
  · rintro ⟨text, hText, rfl⟩
    rw [mapM_id_eq_some_iff] at hText
    rw [toBytes_ofList]
    exact (spells_of_run (show Pending [] .start from rfl) hText).symm
  · rintro rfl
    refine ⟨s.toList, ?_, String.ofList_toList⟩
    rw [mapM_id_eq_some_iff]
    conv_lhs => rw [← String.ofList_toList (s := s), toBytes_ofList]
    exact run_utf8Encode s.toList

end TaggedRuntime.Text
