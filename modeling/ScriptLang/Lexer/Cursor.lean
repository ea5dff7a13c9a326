import ScriptLang.Lexer.Error
import ScriptLang.Text

/-!
# The cursor and what it passes over

A cursor is the unread rest of a source with the position of its first byte.  CR LF and LF CR are
one line end; a CR or LF that is not half of such a pair is a line end of its own.

Between tokens stand blanks, line ends and comments.  A line comment begins with `#` and ends before
the next line end; a block comment begins with `##` and ends with the next `##`.  `trivia` passes
over all of it, byte by byte, knowing in which zone of the source it is.

* `length_trivia_le`: passing over trivia never puts bytes back.
-/

namespace ScriptLang

/-- Where reading goes on: the unread bytes and the position of the first of them. -/
structure Cursor where
  rest : Text
  pos : Position
  deriving DecidableEq, Repr

/-- The position `n` bytes further on the same line. -/
def Position.right (p : Position) (n : Nat) : Position := { p with col := p.col + n }

/-- The position at the start of the next line. -/
def Position.nextLine (p : Position) : Position := { row := p.row + 1, col := 1 }

/-- CR and LF. -/
def isLineEnd (b : UInt8) : Bool := b == 13 || b == 10

/-- Space and tab. -/
def isBlank (b : UInt8) : Bool := b == 32 || b == 9

/-- The byte `#`. -/
def hashMark : UInt8 := 35

namespace Cursor

/-- The cursor at the start of a source. -/
def ofText (source : Text) : Cursor := { rest := source, pos := { row := 1, col := 1 } }

/-- The cursor after `n` bytes that hold no line end. -/
def skip (c : Cursor) (n : Nat) : Cursor := { rest := c.rest.drop n, pos := c.pos.right n }

/-- What kind of trivia the cursor is in. -/
inductive Zone where
  /-- Between tokens, outside comments. -/
  | plain
  | lineComment
  | blockComment
  deriving DecidableEq, Repr

/-- How trivia goes on: the zone after the next byte, and whether the byte after that belongs to
it. -/
structure Move where
  zone : Zone
  paired : Bool
  deriving DecidableEq, Repr

/-- How trivia goes on at the byte `b` before `next`; nothing if a token begins here. -/
def Zone.move (zone : Zone) (b : UInt8) (next : Option UInt8) : Option Move :=
  if isLineEnd b then
    let after := if zone = .lineComment then .plain else zone
    some { zone := after, paired := next.any fun n => isLineEnd n && n != b }
  else if b == hashMark then
    let paired := next == some hashMark
    match zone with
    | .plain => some { zone := if paired then .blockComment else .lineComment, paired := paired }
    | .lineComment => some { zone := .lineComment, paired := false }
    | .blockComment => some { zone := if paired then .plain else .blockComment, paired := paired }
  else
    match zone with
    | .plain => if isBlank b then some { zone := .plain, paired := false } else none
    | _ => some { zone := zone, paired := false }

/-- The position after the byte `b` at `p`, or after `b` and the byte paired with it. -/
def advance (p : Position) (b : UInt8) (paired : Bool) : Position :=
  if isLineEnd b then p.nextLine else p.right (if paired then 2 else 1)

/-- The cursor at the next token, for a source text `t` at `p` in a zone.  It fails at the end of
the source if a block comment is still open there. -/
def triviaFrom : Zone → Position → Text → Except LexError Unit × Cursor
  | zone, p, [] =>
    (if zone = .blockComment then .error .unterminatedComment else .ok (), { rest := [], pos := p })
  | zone, p, b :: rest =>
    match zone.move b rest.head? with
    | none => (.ok (), { rest := b :: rest, pos := p })
    | some m =>
      match m.paired, rest with
      | true, _ :: rest' => triviaFrom m.zone (advance p b true) rest'
      | _, rest => triviaFrom m.zone (advance p b false) rest

/-- Passes over blanks, line ends and comments to the next token. -/
def trivia (c : Cursor) : Except LexError Unit × Cursor := triviaFrom .plain c.pos c.rest

/-- Trivia is passed over and never put back, also where it ends in an error. -/
theorem length_triviaFrom_le (zone : Zone) (p : Position) (t : Text) :
    (triviaFrom zone p t).2.rest.length ≤ t.length := by
  fun_induction triviaFrom zone p t with
  | case1 => simp
  | case2 => simp
  | case3 zone p b rest m _ _ _ ih => simp_all; omega
  | case4 zone p b rest m _ _ ih => simp_all; omega

theorem length_trivia_le (c : Cursor) : c.trivia.2.rest.length ≤ c.rest.length :=
  length_triviaFrom_le .plain c.pos c.rest

end Cursor

end ScriptLang
