import ScriptLang.Lexer
import ScriptLang.Parser.Error

/-!
# Reading with one token of lookahead

A parser is a lexer with at most one token read ahead.  Tokens are pulled from the lexer one at a
time and only when they are looked at, so an error leaves unread what nothing has asked for.  The
`eof` token, once seen, stays the lookahead.

A `Parse α` that has to repeat or nest something takes a bound on how often.  `Failure.exhausted`
says that a bound was reached, which no bound that `Parser.remaining` gives allows.
-/

namespace ScriptLang

/-- A lexer and the token read ahead, if there is one. -/
structure Parser where
  lexer : Lexer
  lookahead : Option Token
  deriving DecidableEq, Repr

/-- How parsing ends without an answer. -/
inductive Failure where
  | error (e : ParseError)
  /-- A bound on repetition or nesting was reached. -/
  | exhausted
  deriving DecidableEq, Repr

/-- Parsing that may fail and leaves the parser where it stopped. -/
abbrev Parse (α : Type) := Attempt Parser Failure α

namespace Parser

/-- The parser at the start of a lexer's source. -/
def ofLexer (l : Lexer) : Parser := { lexer := l, lookahead := none }

/-- A bound on the tokens before the end of the source: each takes a byte, and one may have been
read ahead. -/
def remaining (p : Parser) : Nat :=
  p.lexer.remaining +
    match p.lookahead with
    | some t => if t.kind = .eof then 0 else 1
    | none => 0

/-- Fails with a syntax error. -/
def reject {α : Type} (e : ParseError) : Parse α := Attempt.fail (.error e)

/-- Fails because a bound was reached. -/
def exhausted {α : Type} : Parse α := Attempt.fail .exhausted

/-- Pulls a token from the lexer. -/
def pull : Parse Token := fun p =>
  let (result, lexer) := p.lexer.nextToken
  match result with
  | .ok t => (.ok t, { lexer := lexer, lookahead := some t })
  | .error e => (.error (.error (.lex e)), { p with lexer := lexer })

/-- The next token, which stays the next token. -/
def peek : Parse Token := fun p =>
  match p.lookahead with
  | some t => (.ok t, p)
  | none => pull p

/-- Forgets the token read ahead. -/
def drop : Parse Unit := fun p => (.ok (), { p with lookahead := none })

/-- Takes the next token.  The `eof` token is never used up. -/
def advance : Parse Token := do
  let t ← peek
  if t.kind = .eof then pure t
  else
    drop
    pure t

/-- Whether the next token is of a kind. -/
def at? (kind : TokenKind) : Parse Bool := do
  let t ← peek
  pure (t.kind == kind)

/-- Takes the next token, which has to be of a kind. -/
def expect (kind : TokenKind) : Parse Token := do
  let t ← peek
  if t.kind = kind then advance
  else reject (.expected (.token kind) t.kind t.pos)

/-- Takes the next token if it is of a kind, and says whether it did. -/
def eat (kind : TokenKind) : Parse Bool := do
  if ← at? kind then
    let _ ← advance
    pure true
  else pure false

/-- Runs `x` with the bound on repetition that the unread source gives. -/
def bounded {α : Type} (x : Nat → Parse α) : Parse α := fun p => x (p.remaining + 1) p

end Parser

end ScriptLang
