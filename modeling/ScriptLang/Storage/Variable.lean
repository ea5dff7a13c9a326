import ScriptLang.Intern.Table

/-!
# Variables

A variable is a storage slot: what occupies it, the class of storage it belongs to and its place
there.  A slot whose identifier is `free` holds nothing.
-/

namespace ScriptLang

/-- What occupies a slot. -/
inductive Identifier where
  | free
  /-- Occupied without a name, as a register or a temporary is. -/
  | nameless
  | true
  | false
  | nil
  | symbol (s : Symbol)
  deriving DecidableEq, Repr, Inhabited

/-- Where slots are. -/
inductive StorageClass where
  | register
  | memory
  | constant
  /-- Belongs to a function scope. -/
  | scope
  deriving DecidableEq, Repr

/-- How a class is written. -/
def StorageClass.name : StorageClass → String
  | register => "Register"
  | memory => "Memory"
  | constant => "Constant"
  | scope => "Local"

/-- A slot. -/
structure Variable where
  identifier : Identifier
  storage : StorageClass
  /-- The place of the slot among those of its class. -/
  index : Nat
  deriving DecidableEq, Repr

namespace Variable

/-- A slot that nothing occupies. -/
def vacant (storage : StorageClass) (index : Nat) : Variable :=
  { identifier := .free, storage := storage, index := index }

/-- Whether nothing occupies a slot. -/
def isFree (v : Variable) : Bool := v.identifier == .free

/-- So many slots that nothing occupies, from a place on. -/
def vacantFrom (storage : StorageClass) (start count : Nat) : List Variable :=
  (List.range' start count).map (vacant storage)

/-- The first slot that an identifier occupies.  No slot counts as occupied by `free`. -/
def find? (slots : List Variable) (id : Identifier) : Option Variable :=
  if id = .free then none else slots.find? (·.identifier == id)

/-- The number of slots that something occupies. -/
def occupied (slots : List Variable) : Nat := (slots.filter fun v => !v.isFree).length

end Variable

/-- How many slots storage grows by when none is free. -/
def storageStep : Nat := 2

end ScriptLang
