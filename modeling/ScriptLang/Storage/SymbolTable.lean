import ScriptLang.Memory
import ScriptLang.Storage.Section

/-!
# The symbol table

Global storage has three sections: registers, memory and constants.  At the start the constants
`true`, `false` and `nil` have the first three constant slots, and all registers of the machine are
occupied.
-/

namespace ScriptLang

/-- The sections of the symbol table. -/
inductive SectionKind where
  | register
  | memory
  | constant
  deriving DecidableEq, Repr

/-- The class of the slots of a section. -/
def SectionKind.storage : SectionKind → StorageClass
  | register => .register
  | memory => .memory
  | constant => .constant

/-- The slots a section starts with. -/
def sectionSize : Nat := 16

/-- Global storage. -/
structure SymbolTable where
  registers : Section
  memory : Section
  constants : Section
  deriving DecidableEq, Repr

namespace SymbolTable

/-- A section. -/
def get (t : SymbolTable) : SectionKind → Section
  | .register => t.registers
  | .memory => t.memory
  | .constant => t.constants

/-- The table with a section replaced. -/
def set (t : SymbolTable) (kind : SectionKind) (s : Section) : SymbolTable :=
  match kind with
  | .register => { t with registers := s }
  | .memory => { t with memory := s }
  | .constant => { t with constants := s }

/-- Gives an identifier a slot in a section. -/
def add (t : SymbolTable) (kind : SectionKind) (id : Identifier) : Nat × SymbolTable :=
  let (index, s) := (t.get kind).add id
  (index, t.set kind s)

/-- Frees a slot of a section; says whether something occupied it. -/
def free (t : SymbolTable) (kind : SectionKind) (index : Nat) : Bool × SymbolTable :=
  let (freed, s) := (t.get kind).free index
  (freed, t.set kind s)

/-- The first slot that an identifier occupies, in registers, then memory, then constants. -/
def lookup (t : SymbolTable) (id : Identifier) : Option Variable :=
  t.registers.find? id <|> t.memory.find? id <|> t.constants.find? id

/-- A constant slot, which becomes occupied without a name if it was free. -/
def constant (t : SymbolTable) (index : Nat) : Option Variable × SymbolTable :=
  let (v, s) := t.constants.claim index
  (v, { t with constants := s })

/-- The table before anything of a program is in it. -/
def initial : SymbolTable :=
  let empty : SymbolTable :=
    { registers := .ofSize .register sectionSize
      memory := .ofSize .memory sectionSize
      constants := .ofSize .constant sectionSize }
  let withConstants :=
    [Identifier.true, .false, .nil].foldl (fun t id => (t.add .constant id).2) empty
  (List.replicate registerCount Identifier.nameless).foldl (fun t id => (t.add .register id).2)
    withConstants

end SymbolTable

end ScriptLang
