import ScriptLang.CommandLine.Execution

/-!
# The program

Reads the arguments and the source file, executes the command and writes what came of it.
-/

namespace ScriptLang

/-- The bytes of a file, or why there are none. -/
def readSource (path : String) : IO (Except ReadFailure ByteArray) := do
  try
    let bytes ← IO.FS.readBinFile path
    pure (.ok bytes)
  catch e =>
    match e with
    | .inappropriateType .. => pure (.error .isDirectory)
    | _ => pure (.error .notFound)

/-- How the program is called. -/
def usage : String :=
  "Usage: [--buffer-len <N>] [--strict-interning] [-v] (check|tokens|ast [--json]) <PATH>\n"

end ScriptLang

open ScriptLang in
/-- Executes the command that the arguments call for. -/
def main (args : List String) : IO UInt32 := do
  match Invocation.ofArguments args with
  | .error e =>
    IO.eprint usage
    pure e.exitCode.toUInt32
  | .ok invocation =>
    let content ← readSource invocation.path
    let outcome := invocation.command.onFile invocation.path invocation.options content
    IO.print outcome.output
    IO.eprint outcome.errors
    pure outcome.exitCode.toUInt32
