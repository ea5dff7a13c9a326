import ScriptLang.Machine.Instruction

/-!
# The function table

Functions are known by ids.  Removing a function leaves a hole, and adding one fills the first hole
before the table grows, so a new function gets the least id that is not in use.
-/

namespace ScriptLang

/-- The functions by id; removed ones leave a hole. -/
structure FunctionTable where
  slots : List (Option Code)
  deriving DecidableEq, Repr

namespace FunctionTable

/-- The table without functions. -/
def empty : FunctionTable := { slots := [] }

/-- The body of a function. -/
def get? (t : FunctionTable) (id : Nat) : Option Code := (t.slots[id]?).join

/-- Adds a function under the first id that is not in use. -/
def add (t : FunctionTable) (code : Code) : Nat × FunctionTable :=
  match t.slots.findIdx? Option.isNone with
  | some hole => (hole, { slots := t.slots.set hole (some code) })
  | none => (t.slots.length, { slots := t.slots ++ [some code] })

/-- Removes a function that is there and gives its body. -/
def remove? (t : FunctionTable) (id : Nat) : Option (Code × FunctionTable) :=
  (t.get? id).map fun code => (code, { slots := t.slots.set id none })

end FunctionTable

end ScriptLang
