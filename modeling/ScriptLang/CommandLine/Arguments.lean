import ScriptLang.Lexer

/-!
# The command line

```text
check PATH | tokens PATH | ast PATH [--json]
--buffer-len N    the longest text of a token
--strict-interning
-v, --verbose     may be repeated
-h, --help
```

The options that are not `--json` may stand before the command, after it, or both; what stands after
it wins.  On either side `--buffer-len` and `--strict-interning` may be given once.  `--` ends the
options, and everything after it is a path.

Arguments are read from left to right, and the first that is wrong decides the error.  A value of
`--buffer-len` that is an argument of its own is only looked at when the next option or path is
accepted, so an unknown option after it is reported first.
-/

namespace ScriptLang

/-- What is to be done with a source file. -/
inductive Command where
  | check
  | tokens
  | ast (json : Bool)
  deriving DecidableEq, Repr

/-- Why the arguments call for no command. -/
inductive UsageError where
  /-- Help was asked for. -/
  | help
  /-- There are no arguments. -/
  | helpOnMissingArgument
  | missingSubcommand
  | invalidSubcommand
  /-- A command without its path. -/
  | missingRequiredArgument
  | unknownArgument
  /-- An option was given twice. -/
  | argumentConflict
  /-- A value that does not fit its option. -/
  | valueValidation
  /-- An option without its value. -/
  | invalidValue
  /-- A value for an option that takes none. -/
  | tooManyValues
  deriving DecidableEq, Repr

/-- The exit code of a usage error. -/
def UsageError.exitCode : UsageError → Nat
  | help => 0
  | _ => 2

/-- A command with its path and options. -/
structure Invocation where
  command : Command
  path : String
  verbosity : Nat
  options : LexerOptions
  deriving DecidableEq, Repr

namespace CommandLine

/-- The names of the commands. -/
inductive Subcommand where
  | check
  | tokens
  | ast
  deriving DecidableEq, Repr

/-- The command with a name. -/
def Subcommand.ofName? : String → Option Subcommand
  | "check" => some .check
  | "tokens" => some .tokens
  | "ast" => some .ast
  | _ => none

/-- The value of `--buffer-len` that was given last, if it was an argument of its own and has not
been looked at. -/
inductive Pending where
  | nothing
  /-- The option was given, its value not yet. -/
  | awaiting
  | value (v : String)
  deriving DecidableEq, Repr

/-- What the arguments on one side of the command have said. -/
structure Settings where
  bufferLength : Option Nat := none
  strict : Bool := false
  verbosity : Nat := 0
  json : Bool := false
  path : Option String := none
  pending : Pending := .nothing
  deriving DecidableEq, Repr

/-- The most that `--verbose` counts. -/
def maxVerbosity : Nat := 255

/-- The largest value of `--buffer-len`. -/
def maxBufferLength : Nat := Nat.pow 2 64 - 1

/-- The number that digits, after an optional `+`, write. -/
def readLength? (s : String) : Option Nat :=
  let digits := match s.toList with
    | '+' :: rest => rest
    | cs => cs
  if digits.isEmpty || !digits.all Char.isDigit then none
  else
    let n := digits.foldl (fun n d => 10 * n + (d.toNat - '0'.toNat)) 0
    if n ≤ maxBufferLength then some n else none

namespace Settings

/-- Whether no argument has said anything. -/
def isEmpty (s : Settings) : Bool :=
  s.bufferLength.isNone && !s.strict && s.verbosity == 0 && !s.json && s.path.isNone

/-- Gives `--buffer-len` a value. -/
def setLength (s : Settings) (v : String) : Except UsageError Settings :=
  if s.bufferLength.isSome then .error .argumentConflict
  else
    match readLength? v with
    | some n => .ok { s with bufferLength := some n }
    | none => .error .valueValidation

/-- Looks at the value that is pending. -/
def settle (s : Settings) : Except UsageError Settings :=
  match s.pending with
  | .nothing => .ok s
  | .awaiting => .error .invalidValue
  | .value v => ({ s with pending := .nothing } : Settings).setLength v

/-- Counts `--verbose` once more. -/
def addVerbose (s : Settings) : Except UsageError Settings := do
  let s ← s.settle
  pure { s with verbosity := min maxVerbosity (s.verbosity + 1) }

/-- Takes the letters of a group of short options. -/
def addShort (s : Settings) : List Char → Except UsageError Settings
  | [] => .ok s
  | 'v' :: rest => do
    let s ← s.addVerbose
    s.addShort rest
  | 'h' :: _ => do
    let _ ← s.settle
    .error .help
  | _ => .error .unknownArgument

/-- Takes a long option without a value of its own.  `--json` is one only after `ast`. -/
def addFlag (sub : Option Subcommand) (s : Settings) (name : String) :
    Except UsageError Settings :=
  match name, sub with
  | "buffer-len", _ => do
    let s ← s.settle
    pure { s with pending := .awaiting }
  | "strict-interning", _ => do
    let s ← s.settle
    if s.strict then .error .argumentConflict else pure { s with strict := true }
  | "verbose", _ => s.addVerbose
  | "help", _ => do
    let _ ← s.settle
    .error .help
  | "json", some .ast => do
    let s ← s.settle
    if s.json then .error .argumentConflict else pure { s with json := true }
  | _, _ => .error .unknownArgument

/-- Takes a long option with a value after `=`. -/
def addValued (sub : Option Subcommand) (s : Settings) (name value : String) :
    Except UsageError Settings :=
  match name, sub with
  | "buffer-len", _ => do
    let s ← s.settle
    s.setLength value
  | "strict-interning", _ | "verbose", _ | "help", _ | "json", some .ast => .error .tooManyValues
  | _, _ => .error .unknownArgument

/-- Takes a path. -/
def addPath (s : Settings) (path : String) : Except UsageError Settings :=
  if s.path.isSome then .error .unknownArgument
  else do
    let s ← s.settle
    pure { s with path := some path }

end Settings

/-- The form of an argument where options are allowed. -/
inductive Form where
  /-- The end of the options. -/
  | escape
  | flag (name : String)
  | valued (name value : String)
  | short (letters : List Char)
  /-- Not an option. -/
  | plain
  deriving DecidableEq, Repr

/-- The form of an argument. -/
def Form.of (arg : String) : Form :=
  match arg.toList with
  | ['-', '-'] => .escape
  | '-' :: '-' :: rest =>
    let name := rest.takeWhile (· != '=')
    match rest.dropWhile (· != '=') with
    | _ :: value => .valued (String.ofList name) (String.ofList value)
    | [] => .flag (String.ofList name)
  | '-' :: c :: rest => .short (c :: rest)
  | _ => .plain

/-- Reads the arguments after the command. -/
def afterCommand (sub : Subcommand) : Settings → List String → Except UsageError Settings
  | s, [] => s.settle
  | s, arg :: rest =>
    match Form.of arg with
    | .escape => do
      let s ← rest.foldlM (fun s path => s.addPath path) s
      s.settle
    | .flag name => do
      let s ← s.addFlag (some sub) name
      afterCommand sub s rest
    | .valued name value => do
      let s ← s.addValued (some sub) name value
      afterCommand sub s rest
    | .short letters => do
      let s ← s.addShort letters
      afterCommand sub s rest
    | .plain =>
      if s.pending = .awaiting then afterCommand sub { s with pending := .value arg } rest
      else do
        let s ← s.addPath arg
        afterCommand sub s rest

/-- The command that is meant after its options are known. -/
def Subcommand.command (sub : Subcommand) (after : Settings) : Command :=
  match sub with
  | .check => .check
  | .tokens => .tokens
  | .ast => .ast after.json

/-- How sources are read, from what was said before and after the command. -/
def lexerOptions (before after : Settings) : LexerOptions :=
  { bufferLength :=
      (after.bufferLength <|> before.bufferLength).getD (default : LexerOptions).bufferLength
    policy := if after.strict || before.strict then .verified else .hashOnly }

/-- The end of arguments that name no command. -/
def withoutCommand (s : Settings) : Except UsageError Invocation := do
  let s ← s.settle
  if s.isEmpty then .error .helpOnMissingArgument else .error .missingSubcommand

/-- Help, in general or on a command. -/
def help : List String → UsageError
  | [] => .help
  | [name] =>
    if name = "help" || (Subcommand.ofName? name).isSome then .help else .invalidSubcommand
  | _ => .invalidSubcommand

/-- Reads arguments from before the command on. -/
def beforeCommand : Settings → List String → Except UsageError Invocation
  | s, [] => withoutCommand s
  | s, arg :: rest =>
    match Form.of arg with
    | .escape =>
      match rest with
      | [] => withoutCommand s
      | name :: _ =>
        if name = "help" || (Subcommand.ofName? name).isSome then .error .unknownArgument
        else .error .invalidSubcommand
    | .flag name => do
      let s ← s.addFlag none name
      beforeCommand s rest
    | .valued name value => do
      let s ← s.addValued none name value
      beforeCommand s rest
    | .short letters => do
      let s ← s.addShort letters
      beforeCommand s rest
    | .plain =>
      if s.pending = .awaiting then beforeCommand { s with pending := .value arg } rest
      else if arg = "help" then .error (help rest)
      else
        match Subcommand.ofName? arg with
        | none => .error .invalidSubcommand
        | some sub => do
          let after ← afterCommand sub {} rest
          match after.path with
          | none => .error .missingRequiredArgument
          | some path =>
            let before ← s.settle
            pure
              { command := sub.command after
                path := path
                verbosity := if after.verbosity = 0 then before.verbosity else after.verbosity
                options := lexerOptions before after }

end CommandLine

/-- The invocation that arguments, without the program's name, call for. -/
def Invocation.ofArguments (args : List String) : Except UsageError Invocation :=
  CommandLine.beforeCommand {} args

end ScriptLang
