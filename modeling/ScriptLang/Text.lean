/-!
# Text as bytes

Sources, lexemes and interned texts are lists of UTF-8 bytes: columns count bytes, the lexeme bound
counts bytes, and the bound may fall inside a character.  `Text.ofString` and `Text.toString` pass
between texts and strings; `Text.firstChar` is the character a text begins with.
-/

namespace ScriptLang

/-- A text as its UTF-8 bytes. -/
abbrev Text := List UInt8

namespace Text

/-- The bytes of a string, character by character. -/
def ofString (s : String) : Text := s.toList.flatMap String.utf8EncodeChar

/-- The string whose bytes these are; the empty string if they are not UTF-8. -/
def toString (t : Text) : String := (String.fromUTF8? ⟨t.toArray⟩).getD ""

/-- The character with a byte's number. -/
def byteChar (b : UInt8) : Char := Char.ofNat b.toNat

/-- The character a text begins with, or, where the text begins inside a character, the character
with the first byte's number. -/
def firstChar (t : Text) : Char :=
  match ByteArray.utf8DecodeChar? ⟨(t.take 4).toArray⟩ 0 with
  | some c => c
  | none =>
    match t with
    | [] => '\x00'
    | b :: _ => byteChar b

end Text

end ScriptLang
