import ScriptLang.Syntax.Operator

/-!
# The syntax tree

Programs are lists of statements.  Names and literals stay tokens, so that the handle of a text and
its position travel together.  Every node has a span, the position of the token that introduces it:
the operator of a binary expression, the `$` of a call, the opening brace of a block, the keyword or
the name a statement begins with.
-/

namespace ScriptLang

mutual

/-- Expressions. -/
inductive Expr where
  /-- A name, a number, a string, `true`, `false` or `nil`. -/
  | literal (token : Token)
  | unary (op : UnaryOp) (operand : Expr) (span : Position)
  | binary (op : BinOp) (lhs rhs : Expr) (span : Position)
  /-- A function of named parameters. -/
  | func (params : List Token) (body : Block) (span : Position)
  | call (call : Call)

/-- The call of an expression with arguments. -/
inductive Call where
  | mk (callee : Expr) (args : List Expr) (span : Position)

/-- Statements. -/
inductive Stmt where
  /-- Gives a name a value. -/
  | assign (target : Token) (value : Expr) (span : Position)
  /-- Introduces a name, as partial or not, with its value. -/
  | define (name : Token) (isPartial : Bool) (value : Expr) (span : Position)
  /-- Takes one of two blocks, the second of which may be missing. -/
  | branch (condition : Expr) (thenBlock : Block) (elseBlock : Option Block) (span : Position)
  /-- Repeats a block. -/
  | loop (condition : Expr) (body : Block) (span : Position)
  /-- Returns, with a value or without one. -/
  | ret (value : Option Expr) (span : Position)
  | call (call : Call)
  | block (block : Block)

/-- A braced list of statements. -/
inductive Block where
  | mk (stmts : List Stmt) (span : Position)

end

/-- A whole source: its statements in order. -/
structure Program where
  stmts : List Stmt

namespace Call

/-- What is called. -/
def callee : Call → Expr
  | mk callee _ _ => callee

/-- The arguments in order. -/
def args : Call → List Expr
  | mk _ args _ => args

/-- The position of the `$`. -/
def span : Call → Position
  | mk _ _ span => span

end Call

namespace Block

/-- The statements in order. -/
def stmts : Block → List Stmt
  | mk stmts _ => stmts

/-- The position of the opening brace. -/
def span : Block → Position
  | mk _ span => span

end Block

namespace Expr

/-- The position of the token that introduces an expression. -/
def span : Expr → Position
  | literal token => token.pos
  | unary _ _ span => span
  | binary _ _ _ span => span
  | func _ _ span => span
  | call c => c.span

end Expr

namespace Stmt

/-- The position of the token that introduces a statement. -/
def span : Stmt → Position
  | assign _ _ span => span
  | define _ _ _ span => span
  | branch _ _ _ span => span
  | loop _ _ span => span
  | ret _ span => span
  | call c => c.span
  | block b => b.span

end Stmt

end ScriptLang
