import ScriptLang.Diagnostic
import ScriptLang.Storage.Variable

/-!
# Function scopes

A scope holds the local variables of one function body.  Allocation takes the first free slot and
adds two when there is none.  Scopes nest to a fixed depth; with none open, the global scope is the
current one.
-/

namespace ScriptLang

/-- Why code could not be generated. -/
inductive CompileError where
  /-- Too many function scopes are open. -/
  | stackOverflow
  /-- No instruction has the address. -/
  | patchOutOfRange (address : Nat)
  deriving DecidableEq, Repr

namespace CompileError

/-- An error in words. -/
def message : CompileError → String
  | stackOverflow => "Stack overflowed"
  | patchOutOfRange a => "No instruction at address " ++ toString a

instance : Located CompileError where
  message := message
  location := fun _ => .compiler

end CompileError

/-- The local variables of a function body. -/
structure Scope where
  slots : List Variable
  deriving DecidableEq, Repr

namespace Scope

/-- The slots a scope starts with. -/
def initialSize : Nat := 2

/-- A scope without variables. -/
def initial : Scope := { slots := Variable.vacantFrom .scope 0 initialSize }

/-- The number of slots, free or not. -/
def capacity (s : Scope) : Nat := s.slots.length

/-- The number of slots that something occupies. -/
def occupied (s : Scope) : Nat := Variable.occupied s.slots

/-- The scope with a slot occupied by an identifier. -/
def name (s : Scope) (index : Nat) (id : Identifier) : Scope :=
  { slots := s.slots.modify index fun v => { v with identifier := id } }

/-- Takes the first free slot, without a name. -/
def alloc (s : Scope) : Nat × Scope :=
  match s.slots.findIdx? Variable.isFree with
  | some index => (index, s.name index .nameless)
  | none =>
    let grown : Scope := { slots := s.slots ++ Variable.vacantFrom .scope s.capacity storageStep }
    (s.capacity, grown.name s.capacity .nameless)

/-- Takes the first free slot for an identifier. -/
def declare (s : Scope) (id : Identifier) : Variable × Scope :=
  let (index, s) := s.alloc
  ({ identifier := id, storage := .scope, index := index }, s.name index id)

/-- Frees a slot; says whether something occupied it. -/
def free (s : Scope) (index : Nat) : Bool × Scope :=
  match s.slots[index]? with
  | some v =>
    if v.isFree then (false, s) else (true, { slots := s.slots.set index (.vacant .scope index) })
  | none => (false, s)

/-- The slot at a place. -/
def get? (s : Scope) (index : Nat) : Option Variable := s.slots[index]?

/-- The first slot that an identifier occupies. -/
def find? (s : Scope) (id : Identifier) : Option Variable := Variable.find? s.slots id

end Scope

/-- The open function scopes, innermost first. -/
structure ScopeStack where
  scopes : List Scope
  deriving DecidableEq, Repr

namespace ScopeStack

/-- The most scopes that may be open. -/
def capacity : Nat := 16

/-- No open scope. -/
def empty : ScopeStack := { scopes := [] }

/-- The number of open scopes. -/
def depth (s : ScopeStack) : Nat := s.scopes.length

/-- Opens a scope. -/
def enter (s : ScopeStack) (scope : Scope) : Except CompileError ScopeStack :=
  if s.depth < capacity then .ok { scopes := scope :: s.scopes } else .error .stackOverflow

/-- Closes the innermost scope. -/
def leave (s : ScopeStack) : Option Scope × ScopeStack :=
  (s.scopes.head?, { scopes := s.scopes.tail })

/-- The innermost scope. -/
def current? (s : ScopeStack) : Option Scope := s.scopes.head?

/-- The stack with the innermost scope replaced. -/
def setCurrent (s : ScopeStack) (scope : Scope) : ScopeStack :=
  { scopes := scope :: s.scopes.tail }

end ScopeStack

end ScriptLang
