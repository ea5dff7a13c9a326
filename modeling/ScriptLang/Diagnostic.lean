/-!
# Positions and diagnostics

A position is a row and a column, both counted from one; columns count bytes.  A diagnostic is a
message with the place it points at, and has two written forms: `Diagnostic.render`, which names
the file, and `Diagnostic.brief`, which does not.

```text
[<file> <row>:<col>] <message>        <row>:<col>: <message>
[<file> EOF] <message>                EOF: <message>
[Compiler error] <message>            compiler: <message>
```
-/

namespace ScriptLang

/-- A place in a source text, or the place a syntax node was read from. -/
structure Position where
  row : Nat
  col : Nat
  deriving DecidableEq, Repr, Inhabited

/-- Row and column with a colon between them. -/
def Position.render (p : Position) : String :=
  toString p.row ++ ":" ++ toString p.col

/-- Where a diagnostic points. -/
inductive Location where
  /-- A row and a column of the source. -/
  | at (position : Position)
  /-- The end of the source. -/
  | eof
  /-- No place in the source. -/
  | compiler
  deriving DecidableEq, Repr

/-- A message and the place it is about. -/
structure Diagnostic where
  location : Location
  message : String
  deriving DecidableEq, Repr

namespace Diagnostic

/-- The form that names the file. -/
def render (d : Diagnostic) (file : String) : String :=
  match d.location with
  | .at p => "[" ++ file ++ " " ++ p.render ++ "] " ++ d.message
  | .eof => "[" ++ file ++ " EOF] " ++ d.message
  | .compiler => "[Compiler error] " ++ d.message

/-- The form without a file name. -/
def brief (d : Diagnostic) : String :=
  match d.location with
  | .at p => p.render ++ ": " ++ d.message
  | .eof => "EOF: " ++ d.message
  | .compiler => "compiler: " ++ d.message

end Diagnostic

/-- Errors that know what they say and where they point. -/
class Located (ε : Type) where
  message : ε → String
  location : ε → Location

/-- The diagnostic of a located error. -/
def Located.diagnostic {ε : Type} [Located ε] (e : ε) : Diagnostic :=
  { location := location e, message := message e }

end ScriptLang
