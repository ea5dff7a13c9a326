import ScriptLang.CommandLine.Arguments
import ScriptLang.Parser
import ScriptLang.Syntax.Document
import ScriptLang.Syntax.Outline
import ScriptLang.Text.Padding

/-!
# Executing commands

A command reads a source file and writes a report: `check` a one-line summary, `tokens` the token
listing, `ast` the syntax tree as an outline or as a JSON document with the interned texts.  A
report is written as a whole or not at all: a source that cannot be read or parsed gives only an
error.
-/

namespace ScriptLang

/-- Why a source file could not be read. -/
inductive ReadFailure where
  | notFound
  | isDirectory
  /-- The file is not UTF-8. -/
  | notText
  deriving DecidableEq, Repr

/-- The cause in words. -/
def ReadFailure.reason : ReadFailure → String
  | notFound => "No such file or directory (os error 2)"
  | isDirectory => "Is a directory (os error 21)"
  | notText => "stream did not contain valid UTF-8"

/-- What comes of a command. -/
inductive Outcome where
  /-- A report. -/
  | report (text : String)
  /-- An error in a source file. -/
  | sourceError (file : String) (diagnostic : Diagnostic)
  /-- A source file that could not be read. -/
  | unreadable (path : String) (failure : ReadFailure)
  deriving DecidableEq, Repr

namespace Outcome

/-- What a command that could not read its source says. -/
def unreadableMessage (path : String) : String := "failed to read source file " ++ path

/-- The exit code: zero after a report. -/
def exitCode : Outcome → Nat
  | report _ => 0
  | _ => 1

/-- What goes to the standard output. -/
def output : Outcome → String
  | report text => text
  | _ => ""

/-- What goes to the standard error. -/
def errors : Outcome → String
  | report _ => ""
  | sourceError file d => d.render file ++ "\n"
  | unreadable path failure =>
    "Error: " ++ unreadableMessage path ++ "\n\nCaused by:\n    " ++ failure.reason ++ "\n"

/-- The outcome of an error in a source file. -/
def ofError {ε : Type} [Located ε] (file : String) (e : ε) : Outcome :=
  sourceError file (Located.diagnostic e)

end Outcome

/-- A line of the token listing: the position in eight columns, the kind, and, for a token with a
text, the kind in twelve columns and the text. -/
def Token.listing (table : Intern.Table) (t : Token) : String :=
  let position := padRight 8 t.pos.render
  match t.value with
  | some symbol =>
    position ++ padRight 12 t.kind.spelling ++ ((table.get? symbol).getD []).toString ++ "\n"
  | none => position ++ t.kind.spelling ++ "\n"

/-- The JSON document of a program with its interned texts. -/
def Program.document (p : Program) (table : Intern.Table) : Json :=
  .obj
    [("program", p.describe.toJson),
      ("strings", .arr (table.texts.map fun t => .str t.toString))]

namespace Command

/-- The report on a parsed program. -/
def programReport (path : String) (p : Program) (table : Intern.Table) : Command → String
  | ast true => (p.document table).pretty ++ "\n"
  | ast false => p.describe.outline ++ "\n"
  | _ =>
    path ++ ": ok (" ++ toString p.stmts.length ++ " statements, " ++ toString table.size ++
      " interned)\n"

/-- What comes of a command on the source text of a file. -/
def onSource (command : Command) (path : String) (options : LexerOptions) (source : Text) :
    Outcome :=
  match command with
  | tokens =>
    match Lexer.tokenize (.start source options) with
    | (.ok ts, l) => .report (String.join (ts.map (Token.listing l.table)))
    | (.error e, _) => .ofError path e
  | command =>
    match Program.parse source options with
    | .ok (p, table) => .report (command.programReport path p table)
    | .error e => .ofError path e

/-- What comes of a command on what was read of a file. -/
def onFile (command : Command) (path : String) (options : LexerOptions)
    (content : Except ReadFailure ByteArray) : Outcome :=
  match content with
  | .error e => .unreadable path e
  | .ok bytes =>
    if bytes.validateUTF8 then command.onSource path options bytes.toList
    else .unreadable path .notText

end Command

end ScriptLang
