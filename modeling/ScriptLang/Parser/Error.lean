import ScriptLang.Lexer.Error
import ScriptLang.Token

/-!
# Syntax errors

Why a token stream is no program.  What was expected is a token kind or an expression.  An error
that found the end of the source points there and not at a row and column.
-/

namespace ScriptLang

/-- What the syntax asks for at a place. -/
inductive Expectation where
  | token (kind : TokenKind)
  | expression
  deriving DecidableEq, Repr

/-- How a message writes what was expected: a token's spelling stands in quotes. -/
def Expectation.wording : Expectation → String
  | token kind => "\"" ++ kind.spelling ++ "\""
  | expression => "expression"

/-- Why a source could not be parsed. -/
inductive ParseError where
  /-- No token could be read. -/
  | lex (error : LexError)
  /-- Something else stands where a certain token, or an expression, has to. -/
  | expected (expected : Expectation) (found : TokenKind) (pos : Position)
  /-- Nothing begins with this token. -/
  | unrecognised (pos : Position)
  /-- Too many operators wait for their right operand. -/
  | operatorOverflow (pos : Position)
  deriving DecidableEq, Repr

namespace ParseError

/-- An error in words. -/
def message : ParseError → String
  | lex e => e.message
  | expected x found _ => "Expected " ++ x.wording ++ ", got \"" ++ found.spelling ++ "\""
  | unrecognised _ => "Unrecognised token"
  | operatorOverflow _ => "Operator stack overflowed"

/-- Where an error points. -/
def location : ParseError → Location
  | lex e => e.location
  | expected _ found pos => if found = .eof then .eof else .at pos
  | unrecognised pos => .at pos
  | operatorOverflow pos => .at pos

instance : Located ParseError where
  message := message
  location := location

end ParseError

end ScriptLang
