import ScriptLang.Diagnostic

/-!
# Lexical errors

What can be wrong with a source before any syntax is looked at, with the wording of each cause and
the place it points at.  A comment or a string that is never closed points at the end of the source.
-/

namespace ScriptLang

/-- Why no token could be read. -/
inductive LexError where
  /-- A block comment runs to the end of the source. -/
  | unterminatedComment
  /-- A string runs to the end of the source. -/
  | unterminatedString (quote : Char)
  /-- A line ends inside a string. -/
  | newlineInString (pos : Position)
  /-- No token begins, or goes on, with this character. -/
  | unexpectedCharacter (ch : Char) (pos : Position)
  /-- The second half of a two-character operator is missing. -/
  | expectedCharacter (expected : Char) (pos : Position)
  /-- The text of a token is over the bound. -/
  | tooLong (pos : Position)
  deriving DecidableEq, Repr

namespace LexError

/-- An error in words. -/
def message : LexError → String
  | unterminatedComment => "Expected \"##\""
  | unterminatedString q => "Expected '" ++ q.toString ++ "'"
  | newlineInString _ => "Unexpected new line"
  | unexpectedCharacter c _ => "Unexpected character '" ++ c.toString ++ "'"
  | expectedCharacter c _ => "Expected '" ++ c.toString ++ "'"
  | tooLong _ => "Too long content"

/-- Where an error points. -/
def location : LexError → Location
  | unterminatedComment => .eof
  | unterminatedString _ => .eof
  | newlineInString p => .at p
  | unexpectedCharacter _ p => .at p
  | expectedCharacter _ p => .at p
  | tooLong p => .at p

instance : Located LexError where
  message := message
  location := location

end LexError

end ScriptLang
