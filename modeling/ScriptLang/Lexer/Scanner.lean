import ScriptLang.Attempt
import ScriptLang.Lexer.Cursor
import ScriptLang.Text.Byte
import ScriptLang.Token

/-!
# Lexemes

The scanner reads lexemes: tokens whose text is still the text itself and not a handle.  It is a
cursor with a bounded buffer for the text of the lexeme being read.  A text over the bound is an
error, and so is a byte that no lexeme begins with.  After an error the cursor stays where it
stopped and the buffer keeps what was stored, except that a string without its closing quote leaves
the buffer empty; the next lexeme's text is stored behind what is left.

Stored texts are: the bytes of a word; the bytes of a number without its `_` separators; `$` and the
bytes of a string between its quotes.
-/

namespace ScriptLang

/-- A token with its text. -/
structure Lexeme where
  kind : TokenKind
  text : Option Text
  pos : Position
  deriving DecidableEq, Repr

/-! ### Bytes and their classes -/

/-- The two quotes. -/
def isQuote (b : UInt8) : Bool := b == 39 || b == 34

/-- The bytes a word goes on with. -/
def isWordByte (b : UInt8) : Bool := isLetter b || isUnderscore b

/-- The bytes a number goes on with, its point apart. -/
def isNumberByte (b : UInt8) : Bool := isLetter b || isDigit b || isUnderscore b

/-- The bytes a string in `quote` goes on with. -/
def isStringByte (quote b : UInt8) : Bool := b != quote && !isLineEnd b

/-- The byte `$`, which the stored text of a string begins with. -/
def stringMark : UInt8 := 36

/-- The bytes of a number at the start of a text: digits, letters, separators and a single
point. -/
def numberRun (pointSeen : Bool) : Text → Text
  | [] => []
  | b :: rest =>
    if isPoint b then
      if pointSeen then [] else b :: numberRun true rest
    else if isNumberByte b then b :: numberRun pointSeen rest
    else []

/-! ### Operators and delimiters -/

/-- The operator or delimiter that begins with `c` before the character `next`, with its length. -/
def punctuation? (c : Char) (next : Option Char) : Option (TokenKind × Nat) :=
  match c with
  | '$' => some (.money, 1)
  | '+' => some (.add, 1)
  | '-' => some (.minus, 1)
  | '*' => some (.mul, 1)
  | '/' => some (.div, 1)
  | ';' => some (.semicolon, 1)
  | ',' => some (.comma, 1)
  | '(' => some (.lParen, 1)
  | ')' => some (.rParen, 1)
  | '[' => some (.lBracket, 1)
  | ']' => some (.rBracket, 1)
  | '\x7b' => some (.lBrace, 1)
  | '\x7d' => some (.rBrace, 1)
  | ':' => if next = some '=' then some (.is, 2) else some (.colon, 1)
  | '!' => if next = some '=' then some (.neq, 2) else some (.not, 1)
  | '>' => if next = some '=' then some (.ge, 2) else some (.gt, 1)
  | '<' => if next = some '=' then some (.le, 2) else some (.lt, 1)
  | '=' => if next = some '=' then some (.eq, 2) else none
  | '&' => if next = some '&' then some (.and, 2) else none
  | '|' => if next = some '|' then some (.or, 2) else none
  | _ => none

/-- The error at a text that begins no lexeme: half of `&&` or `||` lacks its other half, and
anything else is unexpected. -/
def noLexeme (t : Text) (pos : Position) : LexError :=
  let c := t.firstChar
  if c = '&' ∨ c = '|' then .expectedCharacter c (pos.right 1)
  else .unexpectedCharacter c pos

/-! ### The bounded buffer -/

/-- Stores the bytes of `run` that `keep` selects behind `buffer`, as long as there is room.
Returns the buffer and the part of `run` from the first byte without room on. -/
def store (limit : Nat) (keep : UInt8 → Bool) (buffer : Text) : Text → Text × Text
  | [] => (buffer, [])
  | b :: run =>
    if keep b then
      if buffer.length < limit then store limit keep (buffer ++ [b]) run else (buffer, b :: run)
    else store limit keep buffer run

/-- A cursor and the text of the lexeme being read, of at most `limit` bytes. -/
structure Scanner where
  cursor : Cursor
  buffer : Text
  limit : Nat
  deriving DecidableEq, Repr

/-- Reading that may fail and leaves the scanner where it stopped. -/
abbrev Scan (α : Type) := Attempt Scanner LexError α

namespace Scanner

/-- The scanner at the start of a source. -/
def ofText (source : Text) (limit : Nat) : Scanner :=
  { cursor := .ofText source, buffer := [], limit := limit }

/-- The unread bytes. -/
def remaining : Scan Text := fun s => (.ok s.cursor.rest, s)

/-- The position of the first unread byte. -/
def position : Scan Position := fun s => (.ok s.cursor.pos, s)

/-- Passes over `n` bytes that hold no line end. -/
def skip (n : Nat) : Scan Unit := fun s => (.ok (), { s with cursor := s.cursor.skip n })

/-- Passes over trivia. -/
def skipTrivia : Scan Unit := fun s =>
  let (result, cursor) := s.cursor.trivia
  (result, { s with cursor := cursor })

/-- Passes over the bytes `run` at the cursor and stores those that `keep` selects.  It stops with
an error at the first that finds no room. -/
def copy (keep : UInt8 → Bool) (run : Text) : Scan Unit := fun s =>
  let (buffer, left) := store s.limit keep s.buffer run
  let cursor := s.cursor.skip (run.length - left.length)
  (if left.isEmpty then .ok () else .error (.tooLong cursor.pos),
    { s with cursor := cursor, buffer := buffer })

/-- Stores `b` without passing over anything. -/
def write (b : UInt8) : Scan Unit := fun s =>
  if s.buffer.length < s.limit then (.ok (), { s with buffer := s.buffer ++ [b] })
  else (.error (.tooLong s.cursor.pos), s)

/-- Takes the stored text and empties the buffer. -/
def take : Scan Text := fun s => (.ok s.buffer, { s with buffer := [] })

/-! ### Reading one lexeme -/

/-- Reads the text of a word. -/
def word : Scan Text := do
  let rest ← remaining
  copy (fun _ => true) (rest.takeWhile isWordByte)
  take

/-- Reads the text of a number.  A second point is an error. -/
def number : Scan Text := do
  let rest ← remaining
  copy (fun b => !isUnderscore b) (numberRun false rest)
  let after ← remaining
  if after.head?.any isPoint then
    let pos ← position
    Attempt.fail (.unexpectedCharacter '.' pos)
  else take

/-- Reads the text of a string in `quote`, from its opening quote on. -/
def string (quote : UInt8) : Scan Text := do
  skip 1
  write stringMark
  let rest ← remaining
  copy (fun _ => true) (rest.takeWhile (isStringByte quote))
  match ← remaining with
  | [] =>
    let _ ← take
    Attempt.fail (.unterminatedString (Text.byteChar quote))
  | b :: _ =>
    if b == quote then
      skip 1
      take
    else
      let pos ← position
      Attempt.fail (.newlineInString { pos with col := pos.col - 1 })

/-- Reads the lexeme that begins at the cursor with the byte `b`, before the bytes `rest`. -/
def lexeme (b : UInt8) (rest : Text) (pos : Position) : Scan Lexeme :=
  if isQuote b then do
    let text ← string b
    pure { kind := .str, text := some text, pos := pos }
  else if isDigit b then do
    let text ← number
    pure { kind := .number, text := some text, pos := pos }
  else if isLetter b then do
    let text ← word
    match TokenKind.keyword? text with
    | some kind => pure { kind := kind, text := none, pos := pos }
    | none => pure { kind := .identifier, text := some text, pos := pos }
  else
    match punctuation? (Text.byteChar b) (rest.head?.map Text.byteChar) with
    | some (kind, length) => do
      skip length
      pure { kind := kind, text := none, pos := pos }
    | none => Attempt.fail (noLexeme (b :: rest) pos)

/-- Reads the next lexeme, which is the end of the source if nothing is left. -/
def next : Scan Lexeme := do
  skipTrivia
  let pos ← position
  match ← remaining with
  | [] => pure { kind := .eof, text := none, pos := pos }
  | b :: rest => lexeme b rest pos

end Scanner

end ScriptLang
