import ScriptLang.Parser.Grammar

/-!
# What may come next

A beginning of a program leaves pieces that are still due: after `when` an expression, a block and
perhaps a colon with another block.  `respond` says what becomes of a list of pieces at the
next kind of token.  The first piece takes it, and other pieces are then due in its place, or it has
nothing to do with the token, and the next piece is asked, or it cannot go on with it.  So
`leaves` reads kinds one by one and decides of every list of kinds if it begins a program.

* `leaves_append`: pieces do not see what is due behind them.
* `Ready.of_respond`: in what is due for a program, every piece that may be over is over at the
  first token of what comes behind it.
* **Completion** (`exists_completion`).  What is still due can always be written down, so every
  list of kinds that `leaves` reads is the beginning of one that may end.
-/

namespace ScriptLang.Grammar

open ScriptLang.Parser (isLiteral startsExpr)

/-- A piece of a program.  Those after an expression, a list or a keyword may be missing. -/
inductive Piece where
  | token (kind : TokenKind)
  | unary
  /-- Operators with their right operands. -/
  | items
  | expr
  | args
  /-- What may follow an argument. -/
  | moreArgs
  | params
  | block
  /-- Statements, in a block or outside. -/
  | stmts (nested : Bool)
  /-- The mark of a partial definition. -/
  | mark
  | alternative
  | optional
  deriving DecidableEq, Repr

/-- What a piece makes of the next kind of token. -/
inductive Response where
  /-- It begins or goes on with it; then these pieces are due in its place. -/
  | takes (rest : List Piece)
  /-- It is over. -/
  | passes
  | refuses
  deriving DecidableEq, Repr

/-- The response where other pieces are due behind. -/
def Response.before (behind : List Piece) : Response → Response
  | takes rest => takes (rest ++ behind)
  | passes => passes
  | refuses => refuses

/-! ### Responses -/

/-- How operands begin. -/
def onUnary (kind : TokenKind) : Response :=
  if (UnaryOp.ofToken? kind).isSome then .takes [.unary]
  else if isLiteral kind then .takes []
  else
    match kind with
    | .lParen => .takes [.expr, .token .rParen]
    | .lBracket => .takes [.token .colon, .params, .token .colon, .block, .token .rBracket]
    | .money => .takes [.token .lParen, .expr, .args, .token .rParen]
    | _ => .refuses

/-- How expressions begin. -/
def onExpr (kind : TokenKind) : Response := (onUnary kind).before [.items]

/-- How statements begin. -/
def onStmt : TokenKind → Response
  | .identifier => .takes [.token .is, .expr]
  | .defWord => .takes [.token .identifier, .mark, .token .is, .expr]
  | .whenWord => .takes [.expr, .block, .alternative]
  | .whileWord => .takes [.expr, .block]
  | .returnWord => .takes [.optional]
  | .money => .takes [.token .lParen, .expr, .args, .token .rParen]
  | .lBrace => .takes [.stmts true, .token .rBrace]
  | _ => .refuses

/-- Where statements stop. -/
def stops (nested : Bool) (kind : TokenKind) : Bool := kind == .eof || nested && kind == .rBrace

/-- The response of one piece. -/
def Piece.respond (kind : TokenKind) : Piece → Response
  | token expected => if kind = expected then .takes [] else .refuses
  | unary => onUnary kind
  | items => if (BinOp.ofToken? kind).isSome then .takes [.unary, .items] else .passes
  | expr => onExpr kind
  | args => if kind = .rParen then .passes else (onExpr kind).before [.moreArgs]
  | moreArgs =>
    if kind = .rParen then .passes else if kind = .comma then .takes [.args] else .refuses
  | params => if kind = .identifier then .takes [.token .comma, .params] else .passes
  | block => if kind = .lBrace then .takes [.stmts true, .token .rBrace] else .refuses
  | stmts nested =>
    if kind = .semicolon then .takes [.stmts nested]
    else if stops nested kind then .passes
    else (onStmt kind).before [.stmts nested]
  | mark => if kind = .colon then .takes [.token .partialWord] else .passes
  | alternative => if kind = .colon then .takes [.block] else .passes
  | optional => if startsExpr kind then onExpr kind else .passes

/-- The response of pieces that are due one after the other. -/
def respond : List Piece → TokenKind → Response
  | [], _ => .passes
  | x :: behind, kind =>
    match x.respond kind with
    | .takes rest => .takes (rest ++ behind)
    | .passes => respond behind kind
    | .refuses => .refuses

/-- Covers kinds, and gives what is due after them. -/
def leaves : List Piece → List TokenKind → Option (List Piece)
  | due, [] => some due
  | due, kind :: kinds =>
    match respond due kind with
    | .takes rest => leaves rest kinds
    | .passes | .refuses => none

variable {due due' behind left rest : List Piece} {kind : TokenKind} {kinds kinds' : List TokenKind}

/-- Pieces respond as they do alone, and hand on to those behind them what they pass. -/
theorem respond_append (due behind : List Piece) (kind : TokenKind) :
    respond (due ++ behind) kind =
      match respond due kind with
      | .takes rest => .takes (rest ++ behind)
      | .passes => respond behind kind
      | .refuses => .refuses := by
  induction due with
  | nil => rfl
  | cons x due ih =>
      simp only [List.cons_append, respond]
      cases x.respond kind with
      | takes rest => simp only [List.append_assoc]
      | passes => exact ih
      | refuses => rfl

theorem respond_singleton (x : Piece) (kind : TokenKind) : respond [x] kind = x.respond kind := by
  simp only [respond]
  cases x.respond kind with
  | takes rest => simp only [List.append_nil]
  | passes | refuses => rfl

theorem respond_cons {x : Piece} (h : x.respond kind ≠ .passes) :
    respond (x :: behind) kind = (x.respond kind).before behind := by
  rw [respond]
  cases hx : x.respond kind with
  | passes => exact absurd hx h
  | takes rest | refuses => rfl

/-- Kinds are read one by one: the first is taken, and what is due then leaves the rest. -/
theorem leaves_cons :
    leaves due (kind :: kinds) = some left ↔
      ∃ rest, respond due kind = .takes rest ∧ leaves rest kinds = some left := by
  rw [leaves]
  cases respond due kind <;> simp

/-- What is read does not depend on what is due behind. -/
theorem leaves_append (h : leaves due kinds = some left) (behind : List Piece) :
    leaves (due ++ behind) kinds = some (left ++ behind) := by
  induction kinds generalizing due with
  | nil =>
      cases h
      rfl
  | cons kind kinds ih =>
      obtain ⟨rest, hr, h⟩ := leaves_cons.mp h
      exact leaves_cons.mpr ⟨rest ++ behind, by rw [respond_append, hr], ih h⟩

/-- Kinds are read in two parts, the second by what the first left due. -/
theorem leaves_concat (h : leaves due kinds = some left) (kinds' : List TokenKind) :
    leaves due (kinds ++ kinds') = leaves left kinds' := by
  induction kinds generalizing due with
  | nil =>
      cases h
      rfl
  | cons kind kinds ih =>
      obtain ⟨rest, hr, h⟩ := leaves_cons.mp h
      rw [List.cons_append, leaves, hr]
      exact ih h

/-- Pieces that respond alike to the next kind read alike from there. -/
theorem leaves_congr (h : respond due kind = respond due' kind) :
    leaves due (kind :: kinds) = leaves due' (kind :: kinds) := by
  rw [leaves, leaves, h]

theorem leaves_of_refuses (h : respond due kind = .refuses) :
    leaves due (kind :: kinds) = none := by
  rw [leaves, h]

theorem Response.before_eq_takes {r : Response} (h : r.before behind = .takes rest) :
    ∃ inner, r = .takes inner ∧ rest = inner ++ behind := by
  cases r with
  | takes inner =>
      cases h
      exact ⟨inner, rfl, rfl⟩
  | passes | refuses => cases h

/-- An expression is never missing. -/
theorem onExpr_ne_passes (kind : TokenKind) : onExpr kind ≠ .passes := by
  cases kind <;> decide

/-- An expression is an operand and operators with more of them. -/
theorem respond_expr (behind : List Piece) (kind : TokenKind) :
    respond (.expr :: behind) kind = respond (.unary :: .items :: behind) kind := by
  have hunary : onUnary kind ≠ .passes := by cases kind <;> decide
  rw [respond_cons (x := .expr) (onExpr_ne_passes kind), respond_cons (x := .unary) hunary]
  simp only [Piece.respond, onExpr]
  cases onUnary kind <;> simp [Response.before]

/-- If the list of arguments is not over, an argument comes first. -/
theorem respond_args (h : kind ≠ .rParen) :
    respond [.args] kind = respond [.expr, .moreArgs] kind := by
  rw [respond_singleton, Piece.respond, if_neg h, respond_cons (x := .expr) (onExpr_ne_passes kind)]
  rfl

/-! ### What is due for a program -/

/-- The least that a piece can be written as. -/
def Piece.least : Piece → List TokenKind
  | token kind => [kind]
  | unary | expr => [.nilWord]
  | block => [.lBrace, .rBrace]
  | items | args | moreArgs | params | stmts _ | mark | alternative | optional => []

/-- The least that pieces can be written as. -/
def least (due : List Piece) : List TokenKind := due.flatMap Piece.least

/-- The first kind of what is due at least, and `eof` if nothing is. -/
def first (due : List Piece) : TokenKind := (least due).headD .eof

/-- Whether a piece is over, or can be, where a kind comes behind it. -/
def Piece.admits (kind : TokenKind) : Piece → Bool
  | token expected => expected != .eof
  | unary | block => true
  | expr | items => (BinOp.ofToken? kind).isNone
  | args | moreArgs => kind == .rParen
  | params => kind != .identifier
  | stmts nested => stops nested kind
  | mark | alternative => kind != .colon
  | optional => !startsExpr kind && (BinOp.ofToken? kind).isNone

/-- Every piece admits the first kind of what is due behind it at least. -/
def Ready : List Piece → Prop
  | [] => True
  | x :: behind => x.admits (first behind) ∧ Ready behind

@[simp] theorem least_nil : least [] = [] := rfl

@[simp] theorem least_cons (x : Piece) (due : List Piece) :
    least (x :: due) = x.least ++ least due := List.flatMap_cons

@[simp] theorem first_cons (x : Piece) (behind : List Piece) :
    first (x :: behind) = x.least.headD (first behind) := by
  unfold first
  cases hx : x.least <;> simp [hx]

@[simp] theorem ready_nil : Ready [] := trivial

@[simp] theorem ready_cons {x : Piece} :
    Ready (x :: behind) ↔ x.admits (first behind) ∧ Ready behind := Iff.rfl

/-- What an operand takes is ready in front of anything: it ends in a token or an operand. -/
theorem ready_onUnary (h : onUnary kind = .takes rest) (hbehind : Ready behind) :
    Ready (rest ++ behind) := by
  cases kind <;> cases h <;> simp [Piece.admits, Piece.least, BinOp.ofToken?, hbehind]

/-- What an expression takes is an operand, behind which operators may come. -/
theorem ready_onExpr (h : onExpr kind = .takes rest) (hbehind : Ready (.items :: behind)) :
    Ready (rest ++ behind) := by
  obtain ⟨inner, hunary, rfl⟩ := Response.before_eq_takes h
  rw [List.append_assoc]
  exact ready_onUnary hunary hbehind

/-- What a statement takes is ready where statements stop. -/
theorem ready_onStmt {nested : Bool} (h : onStmt kind = .takes rest)
    (hbehind : Ready (.stmts nested :: behind)) : Ready (rest ++ .stmts nested :: behind) := by
  have hfirst : first behind = .eof ∨ first behind = .rBrace := by
    have hstops := hbehind.1
    simp only [Piece.admits, stops, Bool.or_eq_true, Bool.and_eq_true, beq_iff_eq] at hstops
    exact hstops.imp_right And.right
  have hrest := hbehind.2
  rcases hfirst with hfirst | hfirst
  all_goals
    cases kind <;> cases h <;>
      simp_all [Piece.admits, Piece.least, BinOp.ofToken?, stops, startsExpr, isLiteral]

/-- **One piece**: what it takes the next token for is ready where the piece was. -/
theorem Ready.of_piece {x : Piece} (h : Ready (x :: behind)) (hr : x.respond kind = .takes rest) :
    Ready (rest ++ behind) := by
  obtain ⟨hadmits, hbehind⟩ := h
  cases x with
  | unary => exact ready_onUnary hr hbehind
  | expr => exact ready_onExpr hr ⟨hadmits, hbehind⟩
  | args =>
      simp only [Piece.respond] at hr
      split at hr
      · cases hr
      · obtain ⟨inner, hexpr, rfl⟩ := Response.before_eq_takes hr
        rw [List.append_assoc]
        refine ready_onExpr hexpr ⟨?_, hadmits, hbehind⟩
        have hfirst : first behind = .rParen := by simpa [Piece.admits] using hadmits
        simp [Piece.admits, Piece.least, hfirst, BinOp.ofToken?]
  | stmts nested =>
      simp only [Piece.respond] at hr
      split at hr
      · cases hr
        exact ⟨hadmits, hbehind⟩
      split at hr
      · cases hr
      · obtain ⟨inner, hstmt, rfl⟩ := Response.before_eq_takes hr
        rw [List.append_assoc]
        exact ready_onStmt hstmt ⟨hadmits, hbehind⟩
  | optional =>
      simp only [Piece.respond] at hr
      split at hr
      · have hitems : (BinOp.ofToken? (first behind)).isNone := by
          simp only [Piece.admits, Bool.and_eq_true] at hadmits
          exact hadmits.2
        exact ready_onExpr hr ⟨hitems, hbehind⟩
      · cases hr
  | token | items | moreArgs | params | block | mark | alternative =>
      simp only [Piece.respond] at hr
      split at hr <;> try split at hr
      all_goals cases hr
      all_goals simp_all [Piece.admits, Piece.least, stops]

/-- **One kind more** leaves what is ready ready. -/
theorem Ready.of_respond (h : Ready due) (hr : respond due kind = .takes rest) : Ready rest := by
  induction due with
  | nil => cases hr
  | cons x due ih =>
      rw [respond] at hr
      cases hx : x.respond kind with
      | takes inner =>
          rw [hx] at hr
          cases hr
          exact h.of_piece hx
      | passes =>
          rw [hx] at hr
          exact ih h.2 hr
      | refuses =>
          rw [hx] at hr
          cases hr

/-- What is due stays ready, however many kinds are read. -/
theorem Ready.of_leaves (h : Ready due) (hr : leaves due kinds = some left) : Ready left := by
  induction kinds generalizing due with
  | nil =>
      cases hr
      exact h
  | cons kind kinds ih =>
      obtain ⟨rest, hk, hr⟩ := leaves_cons.mp hr
      exact ih (h.of_respond hk) hr

/-! ### Completion -/

/-- A program may end where this is due. -/
def MayEnd (due : List Piece) : Prop := respond due .eof = .passes

/-- The pieces read these kinds, and may then end. -/
def Covers (due : List Piece) (kinds : List TokenKind) : Prop :=
  ∃ left, leaves due kinds = some left ∧ MayEnd left

/-- A piece that can be written as nothing passes what it admits. -/
theorem Piece.passes_of_admits {x : Piece} (h : x.admits kind) (hleast : x.least = []) :
    x.respond kind = .passes := by
  cases x with
  | stmts nested =>
      have hne : kind ≠ .semicolon := by
        rintro rfl
        cases nested <;> cases h
      have hstops : stops nested kind := h
      simp [respond, hne, hstops]
  | _ => simp_all [admits, least, respond]

/-- A piece that is over at the first kind of what is due behind it can be left out. -/
theorem Covers.skip {x : Piece} (h : Covers due (least due))
    (hx : x.respond (first due) = .passes) : Covers (x :: due) (least due) := by
  unfold first at hx
  obtain ⟨left, hrun, hend⟩ := h
  cases hleast : least due with
  | nil =>
      rw [hleast] at hrun hx
      cases hrun
      refine ⟨x :: due, rfl, ?_⟩
      have hx : x.respond .eof = .passes := hx
      rw [MayEnd, respond, hx]
      exact hend
  | cons kind kinds =>
      rw [hleast] at hrun hx
      have hx : x.respond kind = .passes := hx
      refine ⟨left, ?_, hend⟩
      rw [← hrun]
      exact leaves_congr (by rw [respond, hx])

/-- What is ready can be written down. -/
theorem Ready.covers_least (h : Ready due) : Covers due (least due) := by
  induction due with
  | nil => exact ⟨[], rfl, rfl⟩
  | cons x behind ih =>
      obtain ⟨hadmits, hbehind⟩ := h
      have hcovers := ih hbehind
      cases x with
      | token kind =>
          obtain ⟨left, hrun, hend⟩ := hcovers
          exact ⟨left, by simpa [leaves, respond, Piece.respond, Piece.least] using hrun, hend⟩
      | unary =>
          obtain ⟨left, hrun, hend⟩ := hcovers
          exact ⟨left, hrun, hend⟩
      | expr => exact hcovers.skip (x := .items) (Piece.passes_of_admits hadmits rfl)
      | block =>
          obtain ⟨left, hrun, hend⟩ := hcovers
          exact ⟨left, hrun, hend⟩
      | items | args | moreArgs | params | stmts | mark | alternative | optional =>
          exact hcovers.skip (Piece.passes_of_admits hadmits rfl)

/-- No piece that is due takes the end. -/
theorem Piece.eof_ne_takes {x : Piece} (h : x.admits kind) : x.respond .eof ≠ .takes rest := by
  cases x with
  | token expected =>
      have hne : expected ≠ .eof := by simpa [admits] using h
      simp [respond, Ne.symm hne]
  | stmts nested => simp [respond, stops]
  | _ => simp [respond, onExpr, onUnary, UnaryOp.ofToken?, BinOp.ofToken?, isLiteral, startsExpr,
      Response.before]

/-- The end of a source is no part of what is due. -/
theorem Ready.eof_ne_takes (h : Ready due) : respond due .eof ≠ .takes rest := by
  induction due with
  | nil => nofun
  | cons x due ih =>
      rw [respond]
      cases hx : x.respond .eof with
      | takes inner => exact absurd hx (Piece.eof_ne_takes h.1)
      | passes => exact ih h.2
      | refuses => nofun

theorem Ready.eof_not_mem_leaves (h : Ready due) (hr : leaves due kinds = some left) :
    .eof ∉ kinds := by
  induction kinds generalizing due with
  | nil => nofun
  | cons kind kinds ih =>
      obtain ⟨rest, hk, hr⟩ := leaves_cons.mp hr
      rintro (_ | ⟨_, hmem⟩)
      · exact h.eof_ne_takes hk
      · exact ih (h.of_respond hk) hr hmem

/-- What is due before anything is read. -/
def start : List Piece := [.stmts false]

/-- A program is ready before anything is read: it may end at once. -/
theorem ready_start : Ready start := ⟨rfl, trivial⟩

/-- **Completion.**  Kinds that a program can begin with are the beginning of kinds that make up a
program, and there is no `eof` among them. -/
theorem exists_completion (h : leaves start kinds = some left) :
    ∃ more, Covers start (kinds ++ more) ∧ .eof ∉ kinds ++ more := by
  obtain ⟨left', hrun, hend⟩ := (ready_start.of_leaves h).covers_least
  have hall : leaves start (kinds ++ least left) = some left' := by rw [leaves_concat h, hrun]
  exact ⟨least left, ⟨left', hall, hend⟩, ready_start.eof_not_mem_leaves hall⟩

end ScriptLang.Grammar
