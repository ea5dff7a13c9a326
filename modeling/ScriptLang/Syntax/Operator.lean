import ScriptLang.Token

/-!
# Operators

Unary and binary operators, the tokens that stand for them and their priorities.  A higher priority
binds tighter, and unary operators bind tighter than every binary one.
-/

namespace ScriptLang

/-- Operators before their operand. -/
inductive UnaryOp where
  | not
  | neg
  deriving DecidableEq, Repr

/-- Operators between their operands. -/
inductive BinOp where
  | mul
  | div
  | add
  | sub
  | ge
  | gt
  | le
  | lt
  | eq
  | neq
  | and
  | or
  deriving DecidableEq, Repr

namespace UnaryOp

/-- The priority of every unary operator. -/
def priority : Nat := 20

/-- The operator a token stands for before an operand. -/
def ofToken? : TokenKind → Option UnaryOp
  | .not => some .not
  | .minus => some .neg
  | _ => none

/-- How the syntax tree names an operator. -/
def name : UnaryOp → String
  | not => "Not"
  | neg => "Neg"

end UnaryOp

namespace BinOp

/-- The operator a token stands for between operands. -/
def ofToken? : TokenKind → Option BinOp
  | .mul => some .mul
  | .div => some .div
  | .add => some .add
  | .minus => some .sub
  | .ge => some .ge
  | .gt => some .gt
  | .le => some .le
  | .lt => some .lt
  | .eq => some .eq
  | .neq => some .neq
  | .and => some .and
  | .or => some .or
  | _ => none

/-- The priority of a binary operator. -/
def priority : BinOp → Nat
  | mul | div => 10
  | add | sub => 9
  | ge | gt | le | lt => 8
  | eq | neq => 7
  | and => 6
  | or => 5

/-- How an operator is written in a source. -/
def spelling : BinOp → String
  | mul => "*"
  | div => "/"
  | add => "+"
  | sub => "-"
  | ge => ">="
  | gt => ">"
  | le => "<="
  | lt => "<"
  | eq => "=="
  | neq => "!="
  | and => "&&"
  | or => "||"

/-- How the syntax tree names an operator. -/
def name : BinOp → String
  | mul => "Mul"
  | div => "Div"
  | add => "Add"
  | sub => "Sub"
  | ge => "Ge"
  | gt => "Gt"
  | le => "Le"
  | lt => "Lt"
  | eq => "Eq"
  | neq => "Neq"
  | and => "And"
  | or => "Or"

end BinOp

end ScriptLang
