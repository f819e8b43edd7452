/-! Byte strings and text.

Text is Unicode, and its bytes are UTF-8. Bytes that are no UTF-8 are shown with the replacement
character: one for each byte that can start no character, and one for each longest start of a
character that the bytes after it do not finish. Blank characters are those with the Unicode
property `White_Space`, and text is trimmed by them. -/

namespace TaggedRuntime

/-- Raw contents of a string. -/
abbrev Bytes := List UInt8

namespace Text

/-- The bytes of a text. -/
def toBytes (s : String) : Bytes := s.toUTF8.toList

/-- What a first byte announces: the number of bytes that follow, the bits it contributes, and the
range of the byte that follows it. -/
structure Lead where
  following : Nat
  bits : Nat
  low : UInt8
  high : UInt8
  deriving DecidableEq

/-- No lead is given to a byte that starts no character. The narrowed ranges keep out overlong
forms, surrogates, and code points past the last. -/
def lead? (b : UInt8) : Option Lead :=
  if b < 0x80 then some ⟨0, b.toNat, 0x80, 0xbf⟩
  else if b < 0xc2 then none
  else if b < 0xe0 then some ⟨1, b.toNat - 0xc0, 0x80, 0xbf⟩
  else if b = 0xe0 then some ⟨2, 0, 0xa0, 0xbf⟩
  else if b = 0xed then some ⟨2, 0xd, 0x80, 0x9f⟩
  else if b < 0xf0 then some ⟨2, b.toNat - 0xe0, 0x80, 0xbf⟩
  else if b = 0xf0 then some ⟨3, 0, 0x90, 0xbf⟩
  else if b < 0xf4 then some ⟨3, b.toNat - 0xf0, 0x80, 0xbf⟩
  else if b = 0xf4 then some ⟨3, 4, 0x80, 0x8f⟩
  else none

/-- Where a decoder stands: between characters, or inside one, with so many bytes owed, the bits
known so far, and the range that the next byte must lie in. -/
inductive Decoder where
  | start
  | inside (owed bits : Nat) (low high : UInt8)
  deriving DecidableEq

/-- What a byte between characters gives: a character, `none` for a byte that starts none, or
nothing yet. -/
def Decoder.first (b : UInt8) : List (Option Char) × Decoder :=
  match lead? b with
  | none => ([none], .start)
  | some lead =>
    if lead.following = 0 then ([some (Char.ofNat lead.bits)], .start)
    else ([], .inside lead.following lead.bits lead.low lead.high)

/-- One byte. A byte that does not continue the character before it ends that character as a
malformed piece and is looked at again on its own. -/
def Decoder.step : Decoder → UInt8 → List (Option Char) × Decoder
  | .start, b => first b
  | .inside owed bits low high, b =>
    if low ≤ b && b ≤ high then
      let bits := bits * 64 + (b.toNat - 0x80)
      if owed ≤ 1 then ([some (Char.ofNat bits)], .start)
      else ([], .inside (owed - 1) bits 0x80 0xbf)
    else
      let (pieces, next) := first b
      (none :: pieces, next)

/-- The characters of a byte sequence in turn, `none` standing for a malformed piece. -/
def Decoder.run : Decoder → Bytes → List (Option Char)
  | .start, [] => []
  | .inside .., [] => [none]
  | state, b :: rest =>
    let (pieces, next) := state.step b
    pieces ++ next.run rest

/-- The characters of well-formed UTF-8. -/
def decode? (bytes : Bytes) : Option String :=
  (Decoder.run .start bytes).mapM id |>.map String.ofList

/-- The text of any bytes, with replacement characters for the malformed pieces. -/
def decodeLossy (bytes : Bytes) : String :=
  String.ofList ((Decoder.run .start bytes).map (·.getD '\uFFFD'))

/-! ### Blank characters -/

/-- The code points with the property `White_Space`, as ranges. -/
def blankRanges : List (Nat × Nat) :=
  [(0x9, 0xd), (0x20, 0x20), (0x85, 0x85), (0xa0, 0xa0), (0x1680, 0x1680), (0x2000, 0x200a),
    (0x2028, 0x2029), (0x202f, 0x202f), (0x205f, 0x205f), (0x3000, 0x3000)]

def isBlank (c : Char) : Bool :=
  blankRanges.any fun (low, high) => low ≤ c.toNat && c.toNat ≤ high

/-- The characters without blanks at either end. -/
def trim (text : List Char) : List Char :=
  ((text.dropWhile isBlank).reverse.dropWhile isBlank).reverse

end Text

end TaggedRuntime
