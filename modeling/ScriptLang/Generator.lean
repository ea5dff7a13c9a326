import ScriptLang.Machine.Instruction
import ScriptLang.Storage.Scope
import ScriptLang.Storage.SymbolTable

/-!
# The code generator

A generator collects the instructions of a function, global storage and the open function scopes.
Jumps are emitted before their targets are known and patched afterwards.  A name is looked up in the
innermost scope and then globally; the scopes in between are not searched.
-/

namespace ScriptLang

/-- Code under construction with the storage it uses. -/
structure Generator where
  code : Code
  symbols : SymbolTable
  scopes : ScopeStack
  deriving DecidableEq, Repr

namespace Generator

/-- A generator without code. -/
def initial : Generator := { code := #[], symbols := .initial, scopes := .empty }

/-- The address that the next instruction gets. -/
def here (g : Generator) : Nat := g.code.size

/-- Adds an instruction and gives its address. -/
def emit (g : Generator) (i : Instruction) : Nat × Generator :=
  (g.here, { g with code := g.code.push i })

/-- Sets operand A, the target of a jump, of the instruction at an address. -/
def patch (g : Generator) (address target : Nat) : Except CompileError Generator :=
  match g.code[address]? with
  | some i => .ok { g with code := g.code.setIfInBounds address { i with a := target } }
  | none => .error (.patchOutOfRange address)

/-- Whether code ends in an instruction that nothing runs past. -/
def isTerminated (code : Code) : Bool :=
  match code.back? with
  | some i => i.op == .halt || i.op == .leav
  | none => false

/-- The finished code: a halt is added unless the code already ends. -/
def finish (g : Generator) : Code :=
  if isTerminated g.code then g.code else g.code.push .halt

/-- Opens a function scope. -/
def enter (g : Generator) : Except CompileError Generator :=
  (g.scopes.enter .initial).map fun scopes => { g with scopes := scopes }

/-- Closes the innermost function scope. -/
def leave (g : Generator) : Option Scope × Generator :=
  let (scope, scopes) := g.scopes.leave
  (scope, { g with scopes := scopes })

/-- The variable of an identifier in the innermost scope, or else the global one. -/
def resolve (g : Generator) (id : Identifier) : Option Variable :=
  (g.scopes.current?.bind fun scope => scope.find? id) <|> g.symbols.lookup id

/-- Gives an identifier a slot: a local one in a function scope, in memory at global scope. -/
def declare (g : Generator) (id : Identifier) : Variable × Generator :=
  match g.scopes.current? with
  | some scope =>
    let (v, scope) := scope.declare id
    (v, { g with scopes := g.scopes.setCurrent scope })
  | none =>
    let (index, symbols) := g.symbols.add .memory id
    ({ identifier := id, storage := .memory, index := index }, { g with symbols := symbols })

end Generator

end ScriptLang
