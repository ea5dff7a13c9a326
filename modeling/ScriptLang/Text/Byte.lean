/-!
# Classes of bytes

The classes of ASCII bytes that words and numbers are made of.  No byte of a longer UTF-8 character
is in any of them.
-/

namespace ScriptLang

/-- The letters of ASCII, of either case. -/
def isLetter (b : UInt8) : Bool := (97 ≤ b && b ≤ 122) || (65 ≤ b && b ≤ 90)

/-- The decimal digits. -/
def isDigit (b : UInt8) : Bool := 48 ≤ b && b ≤ 57

/-- The byte `_`. -/
def isUnderscore (b : UInt8) : Bool := b == 95

/-- The byte `.`. -/
def isPoint (b : UInt8) : Bool := b == 46

end ScriptLang
