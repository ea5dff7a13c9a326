import ScriptLang.Syntax.Tree

/-!
# The described tree

Both written forms of a syntax tree, the outline and the JSON document, show the same things: named
records, named alternatives, lists and what may be missing.  A `Node` is a tree of just these, and
`Program.describe` says what a program looks like as one.
-/

namespace ScriptLang

/-- A described piece of data.  A record or a wrapper is `tagged` if it is one alternative of
several, so that its name matters. -/
inductive Node where
  | nat (n : Nat)
  | bool (b : Bool)
  /-- An alternative without content. -/
  | word (name : String)
  | missing
  | present (content : Node)
  | list (items : List Node)
  /-- Named fields. -/
  | record (tagged : Bool) (name : String) (fields : List (String × Node))
  /-- One field without a name. -/
  | wrapper (tagged : Bool) (name : String) (content : Node)

namespace Node

/-- Content that may be missing. -/
def ofOption : Option Node → Node
  | none => missing
  | some n => present n

end Node

/-- A position as a span. -/
def Position.describe (p : Position) : Node :=
  .record false "Span" [("row", .nat p.row), ("col", .nat p.col)]

/-- A handle is its number. -/
def Symbol.describe (s : Symbol) : Node := .wrapper false "Symbol" (.nat s.index)

/-- A token shows its position as two fields of its own. -/
def Token.describe (t : Token) : Node :=
  .record false "Token"
    [("kind", .word t.kind.name), ("value", .ofOption (t.value.map Symbol.describe)),
      ("row", .nat t.pos.row), ("col", .nat t.pos.col)]

mutual

/-- The alternatives of an expression. -/
def Expr.describe : Expr → Node
  | .literal token => .wrapper true "Literal" token.describe
  | .unary op operand span =>
    .record true "Unary"
      [("op", .word op.name), ("operand", operand.describe), ("span", span.describe)]
  | .binary op lhs rhs span =>
    .record true "Binary"
      [("op", .word op.name), ("lhs", lhs.describe), ("rhs", rhs.describe), ("span", span.describe)]
  | .func params body span =>
    .record true "Func"
      [("params", .list (params.map Token.describe)), ("body", body.describe),
        ("span", span.describe)]
  | .call c => .wrapper true "Call" c.describe

/-- The parts of a call. -/
def Call.describe : Call → Node
  | .mk callee args span =>
    .record false "Call"
      [("callee", callee.describe), ("args", .list (Expr.describeAll args)),
        ("span", span.describe)]

/-- Expressions in order. -/
def Expr.describeAll : List Expr → List Node
  | [] => []
  | e :: es => e.describe :: Expr.describeAll es

/-- The alternatives of a statement. -/
def Stmt.describe : Stmt → Node
  | .assign target value span =>
    .record true "Assign"
      [("target", target.describe), ("value", value.describe), ("span", span.describe)]
  | .define name isPartial value span =>
    .record true "Def"
      [("name", name.describe), ("partial", .bool isPartial), ("value", value.describe),
        ("span", span.describe)]
  | .branch condition thenBlock elseBlock span =>
    .record true "When"
      [("condition", condition.describe), ("then_block", thenBlock.describe),
        ("else_block", .ofOption (Block.describeOption elseBlock)), ("span", span.describe)]
  | .loop condition body span =>
    .record true "While"
      [("condition", condition.describe), ("body", body.describe), ("span", span.describe)]
  | .ret value span =>
    .record true "Return"
      [("value", .ofOption (Expr.describeOption value)), ("span", span.describe)]
  | .call c => .wrapper true "Call" c.describe
  | .block b => .wrapper true "Block" b.describe

/-- The parts of a block. -/
def Block.describe : Block → Node
  | .mk stmts span =>
    .record false "Block" [("stmts", .list (Stmt.describeAll stmts)), ("span", span.describe)]

/-- Statements in order. -/
def Stmt.describeAll : List Stmt → List Node
  | [] => []
  | s :: ss => s.describe :: Stmt.describeAll ss

/-- An expression that may be missing. -/
def Expr.describeOption : Option Expr → Option Node
  | none => none
  | some e => some e.describe

/-- A block that may be missing. -/
def Block.describeOption : Option Block → Option Node
  | none => none
  | some b => some b.describe

end

/-- A program is the list of its statements. -/
def Program.describe (p : Program) : Node :=
  .record false "Program" [("stmts", .list (Stmt.describeAll p.stmts))]

end ScriptLang
