import ScriptLang.Parser.Progress

/-!
# The parser

The parsers of programs, blocks, statements and expressions, with the bounds of the grammar set so
that they are never reached.  What is left is an answer or a syntax error, and the parser as it then
is: it can be asked again after an error, and goes on with the token the error was about.

`Program.parse`, `Block.parse` and `Expr.parse` read a whole source; nothing may follow the block or
the expression.

* `run_eq_ok`, `run_eq_error`: setting the bound changes no answer and no error.
-/

namespace ScriptLang

/-- Parsing without bounds. -/
abbrev Reading (α : Type) := Attempt Parser ParseError α

namespace Parser

variable {α : Type}

/-- A parser that settles everywhere, as one that never reaches a bound. -/
def run (x : Parse α) (h : ∀ p, Settles 0 x p) : Reading α := fun p =>
  match hx : x p with
  | (.ok a, p') => (.ok a, p')
  | (.error (.error e), p') => (.error e, p')
  | (.error .exhausted, _) => absurd hx (h p).ne_exhausted

/-- Running a parser that settles answers what the parser answers. -/
theorem run_eq_ok {x : Parse α} {h : ∀ p, Settles 0 x p} {p p' : Parser} {a : α} :
    run x h p = (.ok a, p') ↔ x p = (.ok a, p') := by
  unfold run
  split
  next hx => simp [hx]
  next hx => simp [hx]
  next hx => exact absurd hx (h p).ne_exhausted

/-- Running a parser that settles fails with the errors of the parser, and no bound is one of
them. -/
theorem run_eq_error {x : Parse α} {h : ∀ p, Settles 0 x p} {p p' : Parser} {e : ParseError} :
    run x h p = (.error e, p') ↔ x p = (.error (.error e), p') := by
  unfold run
  split
  next hx => simp [hx]
  next hx => simp [hx]
  next hx => exact absurd hx (h p).ne_exhausted

/-! ### Parts of a source -/

theorem settles_expr (p : Parser) : Settles 0 (bounded exprWithin) p :=
  .bounded (((settles_within _).1 p (Nat.lt_succ_self _)).mono (Nat.zero_le 1))

theorem settles_block (p : Parser) : Settles 0 (bounded blockWithin) p :=
  .bounded (((settles_within _).2 p (Nat.lt_succ_self _)).mono (Nat.zero_le 1))

/-- A statement that nests at most so deep. -/
def stmtWithin (n : Nat) : Parse Stmt := stmt (exprWithin n) (blockWithin n)

/-- Statements settle within the depth at which their expressions and blocks do. -/
theorem settlesBelow_stmtWithin (n : Nat) : SettlesBelow n (stmtWithin n) :=
  settlesBelow_stmt (settles_within n).1 (settles_within n).2

theorem settles_stmt (p : Parser) : Settles 0 (bounded stmtWithin) p :=
  .bounded ((settlesBelow_stmtWithin _ p (Nat.lt_succ_self _)).mono (Nat.zero_le 1))

/-- So many statements, nested at most so deep, to the end of the source. -/
def programWithin (n : Nat) : Parse Program := do
  let body ← stmts (· == .eof) (stmtWithin n) n
  pure { stmts := body }

/-- A program settles: its statements do, and each takes a token. -/
theorem settles_program (p : Parser) : Settles 0 (bounded programWithin) p :=
  .bounded <|
    (settles_stmts _ (settlesBelow_stmtWithin _) _ p (Nat.lt_succ_self _)
      (Nat.lt_succ_self _)).bind fun _ q _ _ => Settles.pure _ q

/-- Reads an expression. -/
def parseExpr : Reading Expr := run (bounded exprWithin) settles_expr

/-- Reads a block. -/
def parseBlock : Reading Block := run (bounded blockWithin) settles_block

/-- Reads a statement. -/
def parseStmt : Reading Stmt := run (bounded stmtWithin) settles_stmt

/-- Reads statements up to the end of the source. -/
def parseProgram : Reading Program := run (bounded programWithin) settles_program

/-- Makes sure that nothing is left. -/
def parseEnd : Reading Token := run (expect .eof) (settles_expect_any .eof)

end Parser

/-! ### Whole sources -/

/-- Reads a source from its start and gives the answer with the table of its texts. -/
def Reading.source {α : Type} (x : Reading α) (source : Text) (options : LexerOptions) :
    Except ParseError (α × Intern.Table) :=
  match x (.ofLexer (.start source options)) with
  | (.ok a, p) => .ok (a, p.lexer.table)
  | (.error e, _) => .error e

/-- Reads something that nothing follows. -/
def Reading.only {α : Type} (x : Reading α) : Reading α := do
  let a ← x
  let _ ← Parser.parseEnd
  pure a

/-- The program a source holds. -/
def Program.parse (source : Text) (options : LexerOptions) :
    Except ParseError (Program × Intern.Table) :=
  Reading.source Parser.parseProgram source options

/-- The block a source consists of. -/
def Block.parse (source : Text) (options : LexerOptions) :
    Except ParseError (Block × Intern.Table) :=
  Reading.source (Reading.only Parser.parseBlock) source options

/-- The expression a source consists of. -/
def Expr.parse (source : Text) (options : LexerOptions) :
    Except ParseError (Expr × Intern.Table) :=
  Reading.source (Reading.only Parser.parseExpr) source options

end ScriptLang
