import ScriptLang.Parser.State
import ScriptLang.Syntax.Tree

/-!
# The grammar

```text
program   := ';'* (stmt ';'*)* eof
stmt      := name ':=' expr | 'def' name [':' 'partial'] ':=' expr
           | 'when' expr block [':' block] | 'while' expr block
           | 'return' [expr] | call | block
block     := '{' (';' | stmt)* '}'
expr      := unary (binop unary)*
unary     := ('!' | '-') unary | primary
primary   := literal | '(' expr ')' | func | call
func      := '[' ':' (name ',')* ':' block ']'
call      := '$' '(' expr [expr (',' expr)* [',']] ')'
```

Each construct is a parser that takes the parsers of its parts.  Only expressions and blocks contain
themselves; `exprWithin` and `blockWithin` tie that knot to a depth, and every level of nesting uses
up a token, so the tokens left bound the depth.

Binary expressions are read with a stack of operands that wait, with their operators, for what
stands to the right.  Before an operator is pushed, every waiting operator of the same or a higher
priority takes the current operand as its right side, which makes operators of one priority
associate to the left.
-/

namespace ScriptLang.Parser

/-! ### Binary expressions -/

/-- A left operand that waits, with its operator, for its right operand. -/
structure Waiting where
  lhs : Expr
  op : BinOp
  span : Position

/-- The most operands that may wait at once. -/
def waitingCapacity : Nat := 10

/-- The expression that a waiting operand makes with its right operand. -/
def Waiting.close (w : Waiting) (rhs : Expr) : Expr := .binary w.op w.lhs rhs w.span

/-- Closes the waiting operands, innermost first, whose operators bind at least as tight as
`op`. -/
def closeAbove (op : BinOp) : List Waiting → Expr → List Waiting × Expr
  | [], rhs => ([], rhs)
  | w :: ws, rhs =>
    if op.priority ≤ w.op.priority then closeAbove op ws (w.close rhs) else (w :: ws, rhs)

/-- Closes all waiting operands, innermost first. -/
def closeAll (ws : List Waiting) (rhs : Expr) : Expr := ws.foldl (fun e w => w.close e) rhs

/-- Reads operators and operands while operators follow. -/
def operators (operand : Parse Expr) : Nat → List Waiting → Expr → Parse Expr
  | 0, _, _ => exhausted
  | n + 1, waiting, rhs => do
    let t ← peek
    match BinOp.ofToken? t.kind with
    | none => pure (closeAll waiting rhs)
    | some op =>
      let t ← advance
      let closed := closeAbove op waiting rhs
      if closed.1.length = waitingCapacity then reject (.operatorOverflow t.pos)
      else
        let rhs ← operand
        operators operand n ({ lhs := closed.2, op := op, span := t.pos } :: closed.1) rhs

/-- A binary expression over operands. -/
def binary (operand : Parse Expr) : Parse Expr := do
  let first ← operand
  bounded fun n => operators operand n [] first

/-! ### Operands -/

/-- Unary operators before a primary expression. -/
def signs (primary : Parse Expr) : Nat → Parse Expr
  | 0 => exhausted
  | n + 1 => do
    let t ← peek
    match UnaryOp.ofToken? t.kind with
    | some op =>
      let _ ← advance
      let operand ← signs primary n
      pure (.unary op operand t.pos)
    | none => primary

/-- A unary expression over a primary one. -/
def unary (primary : Parse Expr) : Parse Expr := bounded (signs primary)

/-- A comma, unless the closing parenthesis follows. -/
def separator : Parse Unit := do
  if ← at? .rParen then pure ()
  else
    let _ ← expect .comma
    pure ()

/-- Arguments up to the closing parenthesis, separated by commas; one may follow the last. -/
def arguments (expr : Parse Expr) : Nat → Parse (List Expr)
  | 0 => exhausted
  | n + 1 => do
    let t ← peek
    if t.kind = .rParen then pure []
    else if t.kind = .eof then reject (.expected (.token .rParen) t.kind t.pos)
    else
      let arg ← expr
      separator
      let args ← arguments expr n
      pure (arg :: args)

/-- A call: a callee and arguments in `$(` and `)`. -/
def call (expr : Parse Expr) : Parse Call := do
  let money ← expect .money
  let _ ← expect .lParen
  let callee ← expr
  let args ← bounded (arguments expr)
  let _ ← expect .rParen
  pure (.mk callee args money.pos)

/-- Parameters, each before a comma. -/
def parameters : Nat → Parse (List Token)
  | 0 => exhausted
  | n + 1 => do
    let t ← peek
    if t.kind = .identifier then
      let param ← advance
      let _ ← expect .comma
      let params ← parameters n
      pure (param :: params)
    else pure []

/-- A function: parameters between colons and a body, in brackets. -/
def func (block : Parse Block) : Parse Expr := do
  let opening ← expect .lBracket
  let _ ← expect .colon
  let params ← bounded parameters
  let _ ← expect .colon
  let body ← block
  let _ ← expect .rBracket
  pure (.func params body opening.pos)

/-- The kinds of token that are expressions by themselves. -/
def isLiteral : TokenKind → Bool
  | .identifier | .number | .str | .trueWord | .falseWord | .nilWord => true
  | _ => false

/-- The kinds of token that an expression can begin with. -/
def startsExpr (kind : TokenKind) : Bool :=
  isLiteral kind || kind == .lParen || kind == .lBracket || kind == .money || kind == .not ||
    kind == .minus

/-- An expression without operators around it. -/
def primary (expr : Parse Expr) (block : Parse Block) : Parse Expr := do
  let t ← peek
  if isLiteral t.kind then
    let t ← advance
    pure (.literal t)
  else
    match t.kind with
    | .lParen =>
      let _ ← advance
      let inner ← expr
      let _ ← expect .rParen
      pure inner
    | .lBracket => func block
    | .money =>
      let c ← call expr
      pure (.call c)
    | .eof => reject (.expected .expression t.kind t.pos)
    | _ => reject (.unrecognised t.pos)

/-! ### Statements -/

/-- Gives a name a value. -/
def assign (expr : Parse Expr) : Parse Stmt := do
  let target ← expect .identifier
  let _ ← expect .is
  let value ← expr
  pure (.assign target value target.pos)

/-- The mark of a partial definition, which may be missing. -/
def partialMark : Parse Bool := do
  if ← eat .colon then
    let _ ← expect .partialWord
    pure true
  else pure false

/-- Introduces a name. -/
def define (expr : Parse Expr) : Parse Stmt := do
  let keyword ← expect .defWord
  let name ← expect .identifier
  let isPartial ← partialMark
  let _ ← expect .is
  let value ← expr
  pure (.define name isPartial value keyword.pos)

/-- The second block of a choice, which may be missing. -/
def alternative (block : Parse Block) : Parse (Option Block) := do
  if ← eat .colon then
    let b ← block
    pure (some b)
  else pure none

/-- Takes one of two blocks. -/
def branch (expr : Parse Expr) (block : Parse Block) : Parse Stmt := do
  let keyword ← expect .whenWord
  let condition ← expr
  let thenBlock ← block
  let elseBlock ← alternative block
  pure (.branch condition thenBlock elseBlock keyword.pos)

/-- Repeats a block. -/
def loop (expr : Parse Expr) (block : Parse Block) : Parse Stmt := do
  let keyword ← expect .whileWord
  let condition ← expr
  let body ← block
  pure (.loop condition body keyword.pos)

/-- An expression if one begins here. -/
def optional (expr : Parse Expr) : Parse (Option Expr) := do
  let t ← peek
  if startsExpr t.kind then
    let value ← expr
    pure (some value)
  else pure none

/-- Returns, with a value if an expression begins after the keyword. -/
def ret (expr : Parse Expr) : Parse Stmt := do
  let keyword ← expect .returnWord
  let value ← optional expr
  pure (.ret value keyword.pos)

/-- A statement, told by its first token. -/
def stmt (expr : Parse Expr) (block : Parse Block) : Parse Stmt := do
  let t ← peek
  match t.kind with
  | .identifier => assign expr
  | .defWord => define expr
  | .whenWord => branch expr block
  | .whileWord => loop expr block
  | .returnWord => ret expr
  | .money =>
    let c ← call expr
    pure (.call c)
  | .lBrace =>
    let b ← block
    pure (.block b)
  | _ => reject (.unrecognised t.pos)

/-- Statements, with any number of semicolons around them, up to a token that `stop` tells. -/
def stmts (stop : TokenKind → Bool) (stmt : Parse Stmt) : Nat → Parse (List Stmt)
  | 0 => exhausted
  | n + 1 => do
    let t ← peek
    if t.kind = .semicolon then
      let _ ← advance
      stmts stop stmt n
    else if stop t.kind then pure []
    else
      let s ← stmt
      let rest ← stmts stop stmt n
      pure (s :: rest)

/-- Statements in braces. -/
def braced (stmt : Parse Stmt) : Parse Block := do
  let opening ← expect .lBrace
  let body ← bounded (stmts (fun kind => kind == .rBrace || kind == .eof) stmt)
  let _ ← expect .rBrace
  pure (.mk body opening.pos)

/-! ### Nesting -/

mutual

/-- An expression that nests at most so deep. -/
def exprWithin : Nat → Parse Expr
  | 0 => exhausted
  | n + 1 => binary (unary (primary (exprWithin n) (blockWithin n)))

/-- A block that nests at most so deep. -/
def blockWithin : Nat → Parse Block
  | 0 => exhausted
  | n + 1 => braced (stmt (exprWithin n) (blockWithin n))

end

end ScriptLang.Parser
