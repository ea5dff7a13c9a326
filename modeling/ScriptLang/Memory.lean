import ScriptLang.Attempt
import ScriptLang.Value

/-!
# Memory

Memory is a row of cells, the first eight of which are the registers; the cells after them are the
locals.  It grows when a cell past its end is written, up to a fixed capacity, and a cell that was
never written reads as nil.
-/

namespace ScriptLang

/-- The number of registers. -/
def registerCount : Nat := 8

/-- The most cells memory grows to. -/
def memoryCapacity : Nat := Nat.pow 2 24

/-- Why a cell could not be written. -/
inductive MemoryError where
  /-- The cell is past the capacity. -/
  | cellOutOfRange (index : Nat)
  /-- The cell of the local is past the capacity. -/
  | localOutOfRange (index : Nat)
  deriving DecidableEq, Repr

namespace MemoryError

/-- An error in words. -/
def message : MemoryError → String
  | cellOutOfRange i => "Memory cell " ++ toString i ++ " is out of range"
  | localOutOfRange i => "Local " ++ toString i ++ " is out of range"

/-- The index that was asked for. -/
def index : MemoryError → Nat
  | cellOutOfRange i => i
  | localOutOfRange i => i

end MemoryError

/-- The cells written so far and those before them. -/
structure Memory where
  cells : Array Value
  deriving DecidableEq, Repr

namespace Memory

/-- Memory before anything is written: the registers. -/
def empty : Memory := { cells := Array.replicate registerCount .nil }

/-- The number of cells. -/
def size (m : Memory) : Nat := m.cells.size

/-- The value of a cell, nil past the end. -/
def get (m : Memory) (i : Nat) : Value := (m.cells[i]?).getD .nil

/-- The value of a local. -/
def getLocal (m : Memory) (i : Nat) : Value := m.get (registerCount + i)

/-- Memory with a cell changed, grown as far as that takes. -/
def put (m : Memory) (i : Nat) (v : Value) : Memory :=
  if i < m.cells.size then { cells := m.cells.setIfInBounds i v }
  else { cells := (m.cells.rightpad i .nil).push v }

/-- Writes a cell. -/
def set (i : Nat) (v : Value) : Attempt Memory MemoryError Unit := fun m =>
  if i < memoryCapacity then (.ok (), m.put i v) else (.error (.cellOutOfRange i), m)

/-- Writes a local. -/
def setLocal (i : Nat) (v : Value) : Attempt Memory MemoryError Unit := fun m =>
  if registerCount + i < memoryCapacity then (.ok (), m.put (registerCount + i) v)
  else (.error (.localOutOfRange i), m)

/-- The number of locals. -/
def localCount (m : Memory) : Nat := m.size - registerCount

/-- The values of the registers. -/
def registers (m : Memory) : List Value := (m.cells.extract 0 registerCount).toList

/-- The cells that hold anything but nil, in order. -/
def contents (m : Memory) : List (Nat × Value) :=
  (m.cells.foldl
    (fun (acc : Nat × List (Nat × Value)) v =>
      (acc.1 + 1, if v = .nil then acc.2 else (acc.1, v) :: acc.2))
    (0, [])).2.reverse

end Memory

end ScriptLang
