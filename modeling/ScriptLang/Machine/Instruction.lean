import ScriptLang.Diagnostic
import ScriptLang.Text.Padding

/-!
# Instructions

An instruction is an opcode with three operands A, B and C and the source position that errors point
at.  Operands are memory cells unless the opcode's comment says otherwise: `M` is memory and `L` its
locals.
-/

namespace ScriptLang

/-- The operations of the machine, in the order of their bytes. -/
inductive Opcode where
  /-- Stop. -/
  | halt
  /-- Sets `L[A] = M[B]`. -/
  | store
  /-- Sets `M[A] = L[B]`. -/
  | load
  /-- Sets `M[A] = M[B]`. -/
  | mov
  /-- Push `M[A]`. -/
  | push
  /-- Sets `M[A]` to the top, which is popped. -/
  | pop
  /-- Sets `M[A]` to the top, which stays. -/
  | peek
  /-- Push the top again. -/
  | dup
  /-- Call function A with the top B values. -/
  | call
  /-- Return with the top A values. -/
  | leav
  /-- Go to address A. -/
  | jmp
  /-- Go to address A if `M[B]` is truthy. -/
  | jmpt
  /-- Go to address A if `M[B]` is falsey. -/
  | jmpf
  /-- Sets `M[A] = !M[B]`. -/
  | not
  /-- Sets `M[A] = M[B] == M[C]`. -/
  | eq
  /-- Sets `M[A] = M[B] != M[C]`. -/
  | neq
  /-- Sets `M[A] = M[B] && M[C]`. -/
  | and
  /-- Sets `M[A] = M[B] || M[C]`. -/
  | or
  /-- Sets `M[A] = -M[B]`. -/
  | inv
  /-- Sets `M[A] = M[B] >= M[C]`. -/
  | ge
  /-- Sets `M[A] = M[B] > M[C]`. -/
  | gt
  /-- Sets `M[A] = M[B] <= M[C]`. -/
  | le
  /-- Sets `M[A] = M[B] < M[C]`. -/
  | lt
  /-- Sets `M[A] = M[B] + M[C]`. -/
  | add
  /-- Sets `M[A] = M[B] - M[C]`. -/
  | sub
  /-- Sets `M[A] = M[B] * M[C]`. -/
  | mul
  /-- Sets `M[A] = M[B] / M[C]`. -/
  | div
  deriving DecidableEq, Repr

namespace Opcode

/-- All opcodes; the byte of an opcode is its place here. -/
def all : List Opcode :=
  [.halt, .store, .load, .mov, .push, .pop, .peek, .dup, .call, .leav, .jmp, .jmpt, .jmpf, .not,
    .eq, .neq, .and, .or, .inv, .ge, .gt, .le, .lt, .add, .sub, .mul, .div]

/-- The opcode of a byte. -/
def ofByte? (byte : Nat) : Option Opcode := all[byte]?

/-- The byte of an opcode. -/
def byte (op : Opcode) : Nat := all.idxOf op

/-- Whether the operands have to be numbers. -/
def isNumeric (op : Opcode) : Bool := inv.byte ≤ op.byte

/-- How an opcode is written. -/
def name : Opcode → String
  | halt => "HALT"
  | store => "STORE"
  | load => "LOAD"
  | mov => "MOV"
  | push => "PUSH"
  | pop => "POP"
  | peek => "PEEK"
  | dup => "DUP"
  | call => "CALL"
  | leav => "LEAV"
  | jmp => "JMP"
  | jmpt => "JMPT"
  | jmpf => "JMPF"
  | not => "NOT"
  | eq => "EQ"
  | neq => "NEQ"
  | and => "AND"
  | or => "OR"
  | inv => "INV"
  | ge => "GE"
  | gt => "GT"
  | le => "LE"
  | lt => "LT"
  | add => "ADD"
  | sub => "SUB"
  | mul => "MUL"
  | div => "DIV"

/-- The opcode with a name. -/
def ofName? (s : String) : Option Opcode := all.find? (·.name == s)

end Opcode

/-- An opcode, its operands and the position its errors point at. -/
structure Instruction where
  op : Opcode
  a : Nat := 0
  b : Nat := 0
  c : Nat := 0
  pos : Position := { row := 0, col := 0 }
  deriving DecidableEq, Repr

namespace Instruction

/-- The instruction that stops the machine. -/
def halt : Instruction := { op := .halt }

/-- An instruction in words: the name in five columns and the operands. -/
def render (i : Instruction) : String :=
  padRight 5 i.op.name ++ " " ++ toString i.a ++ " " ++ toString i.b ++ " " ++ toString i.c

end Instruction

/-- The body of a function. -/
abbrev Code := Array Instruction

end ScriptLang
