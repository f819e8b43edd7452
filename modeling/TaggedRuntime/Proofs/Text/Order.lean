import Mathlib.Data.String.Basic
import TaggedRuntime.Proofs.Text.Utf8

/-! The order of texts. Texts are ordered by their characters, and this is the order of their
UTF-8 bytes: the first byte of a character says how many follow it, and what is left of the code
point stands in the others from its leading bits on. -/

namespace TaggedRuntime.Text

/-- A byte decides unless it is the same on both sides. -/
theorem ofNat_cons_lt {m n : ℕ} {bytes bytes' : Bytes} (hLe : m ≤ n) (hn : n < 256)
    (hRest : m = n → bytes < bytes') : UInt8.ofNat m :: bytes < UInt8.ofNat n :: bytes' := by
  rw [List.cons_lt_cons_iff]
  rcases Nat.lt_or_eq_of_le hLe with hLt | rfl
  · have hm := hLt.trans hn
    refine .inl (UInt8.lt_iff_toNat_lt.mpr ?_)
    rwa [UInt8.toNat_ofNat_of_lt' hm, UInt8.toNat_ofNat_of_lt' hn]
  · exact .inr ⟨rfl, hRest rfl⟩

/-- Of two characters the lesser one has the lesser bytes, whatever follows. Longer encodings have
greater first bytes, so no length has to be compared. -/
theorem utf8EncodeChar_lt {c d : Char} (hLess : c < d) (bytes bytes' : Bytes) :
    String.utf8EncodeChar c ++ bytes < String.utf8EncodeChar d ++ bytes' := by
  have hPoint : c.val.toNat < d.val.toNat := hLess
  have hValid : d.val.toNat.isValidChar := d.valid
  simp only [String.utf8EncodeChar]
  generalize c.val.toNat = v at hPoint
  generalize d.val.toNat = w at hPoint hValid
  unfold Nat.isValidChar at hValid
  -- One case for each number of bytes of the first character. The second one has no fewer; if it
  -- has more, its first byte is greater.
  split
  next => split_ifs <;> exact ofNat_cons_lt (by omega) (by omega) (by omega)
  split
  next =>
    split
    next => omega
    split
    next =>
      refine ofNat_cons_lt (by omega) (by omega) fun hFirst => ?_
      exact ofNat_cons_lt (by omega) (by omega) (by omega)
    split <;> exact ofNat_cons_lt (by omega) (by omega) (by omega)
  split
  next =>
    rw [if_neg (by omega), if_neg (by omega)]
    split
    next =>
      refine ofNat_cons_lt (by omega) (by omega) fun hFirst => ?_
      refine ofNat_cons_lt (by omega) (by omega) fun hSecond => ?_
      exact ofNat_cons_lt (by omega) (by omega) (by omega)
    next => exact ofNat_cons_lt (by omega) (by omega) (by omega)
  next =>
    rw [if_neg (by omega), if_neg (by omega), if_neg (by omega)]
    refine ofNat_cons_lt (by omega) (by omega) fun hFirst => ?_
    refine ofNat_cons_lt (by omega) (by omega) fun hSecond => ?_
    refine ofNat_cons_lt (by omega) (by omega) fun hThird => ?_
    exact ofNat_cons_lt (by omega) (by omega) (by omega)

/-- A text that is less has lesser bytes. The induction is on the two texts, up to the first
difference. -/
theorem utf8Encode_lt {text text' : List Char} (hLess : text < text') :
    text.flatMap String.utf8EncodeChar < text'.flatMap String.utf8EncodeChar := by
  induction hLess with
  | @nil d rest =>
      obtain ⟨b, bytes, hEncoded⟩ := List.exists_cons_of_ne_nil
        (String.utf8EncodeChar_ne_nil (c := d))
      rw [List.flatMap_nil, List.flatMap_cons, hEncoded]
      exact .nil
  | rel hChar => exact utf8EncodeChar_lt hChar _ _
  | cons _ ih => exact List.append_left_lt ih

/-- The order of texts is that of their bytes. -/
theorem toBytes_lt_iff (s t : String) : toBytes s < toBytes t ↔ s < t := by
  have hLess {s t : String} (h : s < t) : toBytes s < toBytes t := by
    rw [← String.ofList_toList (s := s), ← String.ofList_toList (s := t), toBytes_ofList,
      toBytes_ofList]
    exact utf8Encode_lt (String.lt_iff_toList_lt.mp h)
  refine ⟨fun hBytes => ?_, hLess⟩
  rcases lt_trichotomy s t with hLt | rfl | hGt
  · exact hLt
  · exact absurd hBytes (List.lt_irrefl _)
  · exact absurd hBytes (List.lt_asymm (hLess hGt))

end TaggedRuntime.Text
