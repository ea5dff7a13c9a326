import ScriptLang.Decimal.Reading
import ScriptLang.Machine
import ScriptLang.Syntax.Tree

/-!
# Lowering expressions

An expression over literals and operators becomes straight-line code.  Every node gets a memory cell
of its own, numbered from 0 in the order in which the nodes are finished: operands before their
operator, the left before the right.  The cells of literals are seeds, written before the code runs;
every operator is one instruction that fills its cell.

Names, calls and functions have no such code, nor has a number whose text is no decimal.
-/

namespace ScriptLang

/-- The opcode of a unary operator. -/
def UnaryOp.opcode : UnaryOp → Opcode
  | neg => .inv
  | not => .not

/-- The opcode of a binary operator. -/
def BinOp.opcode : BinOp → Opcode
  | mul => .mul
  | div => .div
  | add => .add
  | sub => .sub
  | ge => .ge
  | gt => .gt
  | le => .le
  | lt => .lt
  | eq => .eq
  | neq => .neq
  | and => .and
  | or => .or

/-- The value a literal token stands for, its text taken from the table. -/
def Token.value? (table : Intern.Table) (t : Token) : Option Value :=
  match t.kind with
  | .number => do
    let symbol ← t.value
    let text ← table.get? symbol
    let decimal ← Decimal.read? text
    pure (.number decimal.toBits)
  | .str => t.value.map fun symbol => .string symbol.index.toUInt32
  | .trueWord => some (.bool true)
  | .falseWord => some (.bool false)
  | .nilWord => some .nil
  | _ => none

/-- Code under construction: its instructions and seeds in order, and the next free cell. -/
structure Lowering where
  code : List Instruction
  seeds : List (Nat × Value)
  next : Nat

namespace Lowering

/-- No code. -/
def empty : Lowering := { code := [], seeds := [], next := 0 }

/-- Gives the next cell a value before the code runs. -/
def seed (l : Lowering) (v : Value) : Nat × Lowering :=
  (l.next, { l with seeds := l.seeds ++ [(l.next, v)], next := l.next + 1 })

/-- Fills the next cell by an instruction. -/
def emit (l : Lowering) (op : Opcode) (b c : Nat) (pos : Position) : Nat × Lowering :=
  let i : Instruction := { op := op, a := l.next, b := b, c := c, pos := pos }
  (l.next, { l with code := l.code ++ [i], next := l.next + 1 })

/-- Adds the code of an expression and gives the cell of its value. -/
def expr? (table : Intern.Table) : Expr → Lowering → Option (Nat × Lowering)
  | .literal t, l => (t.value? table).map l.seed
  | .unary op operand pos, l => do
    let (b, l) ← expr? table operand l
    pure (l.emit op.opcode b 0 pos)
  | .binary op lhs rhs pos, l => do
    let (b, l) ← expr? table lhs l
    let (c, l) ← expr? table rhs l
    pure (l.emit op.opcode b c pos)
  | .func .., _ => none
  | .call _, _ => none

end Lowering

/-- The code of an expression, the values its literals need, and the cell of its result. -/
structure Lowered where
  code : Code
  seeds : List (Nat × Value)
  result : Nat

/-- The code of an expression, which halts at its end. -/
def Expr.lower? (table : Intern.Table) (e : Expr) : Option Lowered :=
  (Lowering.expr? table e .empty).map fun (result, l) =>
    { code := (l.code ++ [Instruction.halt]).toArray, seeds := l.seeds, result := result }

/-- Writes the seeds of lowered code to memory. -/
def Memory.seedAll (seeds : List (Nat × Value)) (m : Memory) : Memory :=
  seeds.foldl (fun m s => (Memory.set s.1 s.2 m).2) m

/-- A machine ready to run lowered code, and the id of its function. -/
def Lowered.load (l : Lowered) : Nat × Machine :=
  { Machine.initial with memory := Memory.empty.seedAll l.seeds }.addFunction l.code

end ScriptLang
