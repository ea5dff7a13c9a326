import ScriptLang.Diagnostic
import ScriptLang.Intern.Table

/-!
# Tokens

A token is a kind and a position; identifiers, numbers and strings also carry the handle of their
text.  Every kind has a spelling, which is how messages and listings write it, and a name, under
which the syntax tree shows it.
-/

namespace ScriptLang

/-- The kinds of token. -/
inductive TokenKind where
  | eof
  | identifier
  | number
  | str
  | is
  | colon
  | semicolon
  | eq
  | neq
  | ge
  | gt
  | le
  | lt
  | add
  | minus
  | mul
  | div
  | and
  | or
  | not
  | comma
  | lParen
  | rParen
  | lBracket
  | rBracket
  | lBrace
  | rBrace
  | money
  | defWord
  | whenWord
  | whileWord
  | partialWord
  | returnWord
  | trueWord
  | falseWord
  | nilWord
  deriving DecidableEq, Repr, Inhabited

namespace TokenKind

/-- All kinds, in declaration order. -/
def all : List TokenKind :=
  [.eof, .identifier, .number, .str, .is, .colon, .semicolon, .eq, .neq, .ge, .gt, .le, .lt, .add,
    .minus, .mul, .div, .and, .or, .not, .comma, .lParen, .rParen, .lBracket, .rBracket, .lBrace,
    .rBrace, .money, .defWord, .whenWord, .whileWord, .partialWord, .returnWord, .trueWord,
    .falseWord, .nilWord]

/-- How a kind is written in messages and listings. -/
def spelling : TokenKind → String
  | eof => "EOF"
  | identifier => "IDENTIFIER"
  | number => "NUMBER"
  | str => "STRING"
  | is => ":="
  | colon => ":"
  | semicolon => ";"
  | eq => "=="
  | neq => "!="
  | ge => ">="
  | gt => ">"
  | le => "<="
  | lt => "<"
  | add => "+"
  | minus => "-"
  | mul => "*"
  | div => "/"
  | and => "&&"
  | or => "||"
  | not => "!"
  | comma => ","
  | lParen => "("
  | rParen => ")"
  | lBracket => "["
  | rBracket => "]"
  | lBrace => "\x7b"
  | rBrace => "\x7d"
  | money => "$"
  | defWord => "def"
  | whenWord => "when"
  | whileWord => "while"
  | partialWord => "partial"
  | returnWord => "return"
  | trueWord => "true"
  | falseWord => "false"
  | nilWord => "nil"

/-- How the syntax tree names a kind. -/
def name : TokenKind → String
  | eof => "Eof"
  | identifier => "Identifier"
  | number => "Number"
  | str => "Str"
  | is => "Is"
  | colon => "Colon"
  | semicolon => "Semicolon"
  | eq => "Eq"
  | neq => "Neq"
  | ge => "Ge"
  | gt => "Gt"
  | le => "Le"
  | lt => "Lt"
  | add => "Add"
  | minus => "Minus"
  | mul => "Mul"
  | div => "Div"
  | and => "And"
  | or => "Or"
  | not => "Not"
  | comma => "Comma"
  | lParen => "LParen"
  | rParen => "RParen"
  | lBracket => "LBracket"
  | rBracket => "RBracket"
  | lBrace => "LBrace"
  | rBrace => "RBrace"
  | money => "Money"
  | defWord => "Def"
  | whenWord => "When"
  | whileWord => "While"
  | partialWord => "Partial"
  | returnWord => "Return"
  | trueWord => "True"
  | falseWord => "False"
  | nilWord => "Nil"

/-- The kind with a name. -/
def ofName? (s : String) : Option TokenKind := all.find? (·.name == s)

/-- The reserved words, in the order they are listed. -/
def keywords : List TokenKind :=
  [.defWord, .whenWord, .whileWord, .partialWord, .returnWord, .trueWord, .falseWord, .nilWord]

/-- The reserved word a text spells. -/
def keyword? (t : Text) : Option TokenKind := keywords.find? (Text.ofString ·.spelling == t)

/-- Whether tokens of a kind carry the handle of their text. -/
def hasValue : TokenKind → Bool
  | identifier | number | str => true
  | _ => false

end TokenKind

/-- A token: its kind, the handle of its text if it has one, and where it begins. -/
structure Token where
  kind : TokenKind
  value : Option Symbol
  pos : Position
  deriving DecidableEq, Repr, Inhabited

end ScriptLang
