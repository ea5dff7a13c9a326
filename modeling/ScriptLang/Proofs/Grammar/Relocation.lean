import ScriptLang.Proofs.Grammar

/-!
# Derivations in another place

The grammar looks at the kinds of tokens.  Handles and positions go from the tokens into the tree
and decide nothing, so a derivation stands for many: its tokens may have other handles and stand
elsewhere (`Relocation`), and other tokens may follow it.

* **Relocation** (`StmtsAt.relocate`).  Tokens with other handles and positions derive the same
  tree with these in it.
* **Contexts** (`StmtsAt.freed`).  Of the tokens that follow a derivation only the first matters,
  and of it, whether it is an operator and whether it begins an expression (`EndsLike`).  A
  derivation is put together out of single tokens and smaller ones, so this is shown for tokens
  (`Freed.token`) and for sequences (`Freed.trans`).
* `StmtsAt.append`: statements after statements.
-/

namespace ScriptLang

/-! ### Relocating syntax -/

/-- Other handles and other positions. -/
structure Relocation where
  symbol : Symbol → Symbol
  position : Position → Position

/-- A token of the same kind. -/
def Token.relocate (r : Relocation) (t : Token) : Token :=
  ⟨t.kind, t.value.map r.symbol, r.position t.pos⟩

mutual

/-- An expression of relocated tokens. -/
def Expr.relocate (r : Relocation) : Expr → Expr
  | .literal t => .literal (t.relocate r)
  | .unary op operand span => .unary op (operand.relocate r) (r.position span)
  | .binary op lhs rhs span => .binary op (lhs.relocate r) (rhs.relocate r) (r.position span)
  | .func params body span =>
    .func (params.map (Token.relocate r)) (body.relocate r) (r.position span)
  | .call c => .call (c.relocate r)

def Call.relocate (r : Relocation) : Call → Call
  | .mk callee args span => .mk (callee.relocate r) (Expr.relocateAll r args) (r.position span)

def Expr.relocateAll (r : Relocation) : List Expr → List Expr
  | [] => []
  | e :: es => e.relocate r :: Expr.relocateAll r es

/-- A statement of relocated tokens. -/
def Stmt.relocate (r : Relocation) : Stmt → Stmt
  | .assign target value span => .assign (target.relocate r) (value.relocate r) (r.position span)
  | .define name isPartial value span =>
    .define (name.relocate r) isPartial (value.relocate r) (r.position span)
  | .branch condition body none span =>
    .branch (condition.relocate r) (body.relocate r) none (r.position span)
  | .branch condition body (some elseBody) span =>
    .branch (condition.relocate r) (body.relocate r) (some (elseBody.relocate r)) (r.position span)
  | .loop condition body span =>
    .loop (condition.relocate r) (body.relocate r) (r.position span)
  | .ret none span => .ret none (r.position span)
  | .ret (some value) span => .ret (some (value.relocate r)) (r.position span)
  | .call c => .call (c.relocate r)
  | .block b => .block (b.relocate r)

def Stmt.relocateAll (r : Relocation) : List Stmt → List Stmt
  | [] => []
  | s :: body => s.relocate r :: Stmt.relocateAll r body

def Block.relocate (r : Relocation) : Block → Block
  | .mk body span => .mk (Stmt.relocateAll r body) (r.position span)

end

/-- A program of relocated tokens. -/
def Program.relocate (r : Relocation) (prog : Program) : Program :=
  { stmts := Stmt.relocateAll r prog.stmts }

namespace Grammar

open ScriptLang.Parser (isLiteral startsExpr)

/-! ### Relocating derivations -/

/-- An operator with its operand, relocated. -/
def Item.relocate (r : Relocation) (i : Item) : Item :=
  ⟨i.op, r.position i.span, i.operand.relocate r⟩

/-- The tree of a binary expression goes by priorities, which no relocation changes. -/
theorem Tree.relocate (r : Relocation) {first e : Expr} {items : List Item}
    (h : Tree first items e) :
    Tree (first.relocate r) (items.map (Item.relocate r)) (e.relocate r) := by
  induction h with
  | single first => exact .single _
  | @node first lhs rhs before after i _ _ hb ha ihl ihr =>
      rw [List.map_append, List.map_cons]
      exact .node (i := i.relocate r) ihl ihr (List.forall_mem_map.mpr hb)
        (List.forall_mem_map.mpr ha)

theorem ParamsAt.relocate (r : Relocation) {ts params rest : List Token}
    (h : ParamsAt ts params rest) :
    ParamsAt (ts.map (·.relocate r)) (params.map (·.relocate r)) (rest.map (·.relocate r)) := by
  induction h with
  | nil => exact .nil _
  | cons ht hc _ ih => exact .cons ht hc ih

mutual

/-- **Derivations are relocated**, rule by rule: a rule looks at kinds, which stay, and passes on
positions and handles as they are. -/
theorem PrimaryAt.relocate (r : Relocation) : ∀ {ts e rest}, PrimaryAt ts e rest →
    PrimaryAt (ts.map (·.relocate r)) (e.relocate r) (rest.map (·.relocate r))
  | _, _, _, .literal ht => .literal ht
  | _, _, _, .parens ht he hu => .parens ht (he.relocate r) hu
  | _, _, _, .func ht hc hp hd hb hu => .func ht hc (hp.relocate r) hd (hb.relocate r) hu
  | _, _, _, .call hc => .call (hc.relocate r)

theorem UnaryAt.relocate (r : Relocation) : ∀ {ts e rest}, UnaryAt ts e rest →
    UnaryAt (ts.map (·.relocate r)) (e.relocate r) (rest.map (·.relocate r))
  | _, _, _, .sign ht he => .sign ht (he.relocate r)
  | _, _, _, .primary he => .primary (he.relocate r)

theorem ItemsAt.relocate (r : Relocation) : ∀ {ts items rest}, ItemsAt ts items rest →
    ItemsAt (ts.map (·.relocate r)) (items.map (·.relocate r)) (rest.map (·.relocate r))
  | _, _, _, .nil ht => .nil ht
  | _, _, _, .cons ht he hi => .cons ht (he.relocate r) (hi.relocate r)

theorem ExprAt.relocate (r : Relocation) : ∀ {ts e rest}, ExprAt ts e rest →
    ExprAt (ts.map (·.relocate r)) (e.relocate r) (rest.map (·.relocate r))
  | _, _, _, .mk hf hi ht => .mk (hf.relocate r) (hi.relocate r) (ht.relocate r)

theorem ArgsAt.relocate (r : Relocation) : ∀ {ts args rest}, ArgsAt ts args rest →
    ArgsAt (ts.map (·.relocate r)) (Expr.relocateAll r args) (rest.map (·.relocate r))
  | _, _, _, .nil _ => .nil _
  | _, _, _, .last he => .last (he.relocate r)
  | _, _, _, .cons he hc hes => .cons (he.relocate r) hc (hes.relocate r)

theorem CallAt.relocate (r : Relocation) : ∀ {ts c rest}, CallAt ts c rest →
    CallAt (ts.map (·.relocate r)) (c.relocate r) (rest.map (·.relocate r))
  | _, _, _, .mk ht hl he ha hu => .mk ht hl (he.relocate r) (ha.relocate r) hu

theorem StmtAt.relocate (r : Relocation) : ∀ {ts s rest}, StmtAt ts s rest →
    StmtAt (ts.map (·.relocate r)) (s.relocate r) (rest.map (·.relocate r))
  | _, _, _, .assign ht hi he => .assign ht hi (he.relocate r)
  | _, _, _, .define hk hn hi he => .define hk hn hi (he.relocate r)
  | _, _, _, .definePartial hk hn hc hw hi he => .definePartial hk hn hc hw hi (he.relocate r)
  | _, _, _, .branch hk he hb => .branch hk (he.relocate r) (hb.relocate r)
  | _, _, _, .branchElse hk he hb hc hb' =>
      .branchElse hk (he.relocate r) (hb.relocate r) hc (hb'.relocate r)
  | _, _, _, .loop hk he hb => .loop hk (he.relocate r) (hb.relocate r)
  | _, _, _, .ret hk ht => .ret hk ht
  | _, _, _, .retValue hk ht he => .retValue hk ht (he.relocate r)
  | _, _, _, .call hc => .call (hc.relocate r)
  | _, _, _, .block hb => .block (hb.relocate r)

/-- **Relocation** of statements. -/
theorem StmtsAt.relocate (r : Relocation) : ∀ {ts body rest}, StmtsAt ts body rest →
    StmtsAt (ts.map (·.relocate r)) (Stmt.relocateAll r body) (rest.map (·.relocate r))
  | _, _, _, .nil _ => .nil _
  | _, _, _, .semicolon ht hs => .semicolon ht (hs.relocate r)
  | _, _, _, .cons hs hb => .cons (hs.relocate r) (hb.relocate r)

theorem BlockAt.relocate (r : Relocation) : ∀ {ts b rest}, BlockAt ts b rest →
    BlockAt (ts.map (·.relocate r)) (b.relocate r) (rest.map (·.relocate r))
  | _, _, _, .mk ht hs hu => .mk ht (hs.relocate r) hu

end

/-! ### What may follow -/

/-- What ends before the first tokens ends before the others. -/
inductive EndsLike : List Token → List Token → Prop where
  | mk {t u : Token} {ts us : List Token}
      (hop : BinOp.ofToken? t.kind = none → BinOp.ofToken? u.kind = none)
      (hexpr : startsExpr t.kind = false → startsExpr u.kind = false) : EndsLike (t :: ts) (u :: us)

/-- Whether something ends before a token does not hang on what stands behind that token. -/
theorem EndsLike.append {rest rest' : List Token} (h : EndsLike rest rest') :
    ∀ taken : List Token, EndsLike (taken ++ rest) (taken ++ rest')
  | [] => h
  | _ :: _ => .mk id id

/-- `P` holds of these tokens and those that follow, and of the same tokens before any others that
may follow. -/
def Freed (P : List Token → List Token → Prop) (ts rest : List Token) : Prop :=
  ∃ taken, ts = taken ++ rest ∧ ∀ rest', EndsLike rest rest' → P (taken ++ rest') rest'

namespace Freed

variable {P Q : List Token → List Token → Prop} {ts mid rest : List Token}

theorem mono (h : Freed P ts rest) (hPQ : ∀ ts rest, P ts rest → Q ts rest) : Freed Q ts rest := by
  obtain ⟨taken, hts, hP⟩ := h
  exact ⟨taken, hts, fun rest' hrest => hPQ _ _ (hP rest' hrest)⟩

theorem token (t : Token) (rest : List Token) :
    Freed (fun ts rest => ts = t :: rest) (t :: rest) rest :=
  ⟨[t], rfl, fun _ _ => rfl⟩

/-- What takes nothing has only to end before what follows, here and there. -/
theorem nothing (hP : ∀ rest', EndsLike rest rest' → P rest' rest') : Freed P rest rest :=
  ⟨[], rfl, hP⟩

/-- What is freed of the tokens behind it may be put before other tokens, and what stands before it
too. -/
theorem trans (h : Freed P ts mid) (h' : Freed Q mid rest) :
    Freed (fun ts rest => ∃ mid, P ts mid ∧ Q mid rest) ts rest := by
  obtain ⟨taken, rfl, hP⟩ := h
  obtain ⟨taken', rfl, hQ⟩ := h'
  refine ⟨taken ++ taken', (List.append_assoc _ _ _).symm, fun rest' hrest => ?_⟩
  rw [List.append_assoc]
  exact ⟨_, hP _ (hrest.append taken'), hQ rest' hrest⟩

end Freed

open Freed (token nothing)

theorem ParamsAt.freed {ts params rest : List Token} (h : ParamsAt ts params rest) :
    Freed (ParamsAt · params ·) ts rest := by
  induction h with
  | nil => exact nothing fun _ _ => .nil _
  | cons ht hc _ ih =>
      refine ((token _ _).trans ((token _ _).trans ih)).mono ?_
      rintro _ _ ⟨_, rfl, _, rfl, ih⟩
      exact .cons ht hc ih

mutual

/-- **Derivations are freed of what follows**, rule by rule.  Only where a rule ends for want of a
token does it matter what is there instead, and then it is of a kind that ends the rule too. -/
theorem PrimaryAt.freed : ∀ {ts e rest}, PrimaryAt ts e rest → Freed (PrimaryAt · e ·) ts rest
  | _, _, _, .literal ht => (token _ _).mono fun _ _ hts => hts ▸ .literal ht
  | _, _, _, .parens ht he hu => by
      refine ((token _ _).trans (he.freed.trans (token _ _))).mono ?_
      rintro _ _ ⟨_, rfl, _, he, rfl⟩
      exact .parens ht he hu
  | _, _, _, .func ht hc hp hd hb hu => by
      refine ((token _ _).trans <| (token _ _).trans <| hp.freed.trans <| (token _ _).trans <|
        hb.freed.trans (token _ _)).mono ?_
      rintro _ _ ⟨_, rfl, _, rfl, _, hp, _, rfl, _, hb, rfl⟩
      exact .func ht hc hp hd hb hu
  | _, _, _, .call hc => hc.freed.mono fun _ _ => .call

theorem UnaryAt.freed : ∀ {ts e rest}, UnaryAt ts e rest → Freed (UnaryAt · e ·) ts rest
  | _, _, _, .sign ht he => by
      refine ((token _ _).trans he.freed).mono ?_
      rintro _ _ ⟨_, rfl, he⟩
      exact .sign ht he
  | _, _, _, .primary he => he.freed.mono fun _ _ => .primary

theorem ItemsAt.freed : ∀ {ts items rest}, ItemsAt ts items rest →
    Freed (ItemsAt · items ·) ts rest
  -- No operator follows, there or here.
  | _, _, _, .nil ht => nothing fun _ hrest => by
      cases hrest with
      | mk hop => exact .nil (hop ht)
  | _, _, _, .cons ht he hi => by
      refine ((token _ _).trans (he.freed.trans hi.freed)).mono ?_
      rintro _ _ ⟨_, rfl, _, he, hi⟩
      exact .cons ht he hi

theorem ExprAt.freed : ∀ {ts e rest}, ExprAt ts e rest → Freed (ExprAt · e ·) ts rest
  | _, _, _, .mk hf hi ht => by
      refine (hf.freed.trans hi.freed).mono ?_
      rintro _ _ ⟨_, hf, hi⟩
      exact .mk hf hi ht

theorem ArgsAt.freed : ∀ {ts args rest}, ArgsAt ts args rest → Freed (ArgsAt · args ·) ts rest
  | _, _, _, .nil _ => nothing fun _ _ => .nil _
  | _, _, _, .last he => he.freed.mono fun _ _ => .last
  | _, _, _, .cons he hc hes => by
      refine (he.freed.trans ((token _ _).trans hes.freed)).mono ?_
      rintro _ _ ⟨_, he, _, rfl, hes⟩
      exact .cons he hc hes

theorem CallAt.freed : ∀ {ts c rest}, CallAt ts c rest → Freed (CallAt · c ·) ts rest
  | _, _, _, .mk ht hl he ha hu => by
      refine ((token _ _).trans <| (token _ _).trans <| he.freed.trans <|
        ha.freed.trans (token _ _)).mono ?_
      rintro _ _ ⟨_, rfl, _, rfl, _, he, _, ha, rfl⟩
      exact .mk ht hl he ha hu

theorem StmtAt.freed : ∀ {ts s rest}, StmtAt ts s rest → Freed (StmtAt · s ·) ts rest
  | _, _, _, .assign ht hi he => by
      refine ((token _ _).trans ((token _ _).trans he.freed)).mono ?_
      rintro _ _ ⟨_, rfl, _, rfl, he⟩
      exact .assign ht hi he
  | _, _, _, .define hk hn hi he => by
      refine ((token _ _).trans ((token _ _).trans ((token _ _).trans he.freed))).mono ?_
      rintro _ _ ⟨_, rfl, _, rfl, _, rfl, he⟩
      exact .define hk hn hi he
  | _, _, _, .definePartial hk hn hc hw hi he => by
      refine ((token _ _).trans <| (token _ _).trans <| (token _ _).trans <|
        (token _ _).trans <| (token _ _).trans he.freed).mono ?_
      rintro _ _ ⟨_, rfl, _, rfl, _, rfl, _, rfl, _, rfl, he⟩
      exact .definePartial hk hn hc hw hi he
  | _, _, _, .branch hk he hb => by
      refine ((token _ _).trans (he.freed.trans hb.freed)).mono ?_
      rintro _ _ ⟨_, rfl, _, he, hb⟩
      exact .branch hk he hb
  | _, _, _, .branchElse hk he hb hc hb' => by
      refine ((token _ _).trans <| he.freed.trans <| hb.freed.trans <|
        (token _ _).trans hb'.freed).mono ?_
      rintro _ _ ⟨_, rfl, _, he, _, hb, _, rfl, hb'⟩
      exact .branchElse hk he hb hc hb'
  | _, _, _, .loop hk he hb => by
      refine ((token _ _).trans (he.freed.trans hb.freed)).mono ?_
      rintro _ _ ⟨_, rfl, _, he, hb⟩
      exact .loop hk he hb
  -- A `return` without a value looks at what follows.
  | _, _, _, .ret hk ht => ⟨[_], rfl, fun _ hrest => by
      cases hrest with
      | mk _ hexpr => exact .ret hk (hexpr ht)⟩
  -- The value is taken whole, and begins an expression wherever it stands.
  | _, _, _, .retValue hk _ he => by
      refine ((token _ _).trans he.freed).mono ?_
      rintro _ _ ⟨_, rfl, he⟩
      obtain ⟨_, _, rfl, ht⟩ := he.startsExpr
      exact .retValue hk ht he
  | _, _, _, .call hc => hc.freed.mono fun _ _ => .call
  | _, _, _, .block hb => hb.freed.mono fun _ _ => .block

/-- **Contexts.**  Statements are the same before any tokens that may follow them. -/
theorem StmtsAt.freed : ∀ {ts body rest}, StmtsAt ts body rest → Freed (StmtsAt · body ·) ts rest
  | _, _, _, .nil _ => nothing fun _ _ => .nil _
  | _, _, _, .semicolon ht hs => by
      refine ((token _ _).trans hs.freed).mono ?_
      rintro _ _ ⟨_, rfl, hs⟩
      exact .semicolon ht hs
  | _, _, _, .cons hs hb => by
      refine (hs.freed.trans hb.freed).mono ?_
      rintro _ _ ⟨_, hs, hb⟩
      exact .cons hs hb

theorem BlockAt.freed : ∀ {ts b rest}, BlockAt ts b rest → Freed (BlockAt · b ·) ts rest
  | _, _, _, .mk ht hs hu => by
      refine ((token _ _).trans (hs.freed.trans (token _ _))).mono ?_
      rintro _ _ ⟨_, rfl, _, hs, rfl⟩
      exact .mk ht hs hu

end

/-! ### Programs -/

section Rest

variable {ts rest rest' : List Token} {body : List Stmt}

/-- What statements leave is told by how much it is. -/
theorem StmtsAt.rest_eq (h : StmtsAt (ts ++ rest) body rest') (hlen : rest'.length = rest.length) :
    rest' = rest := by
  obtain ⟨before, happend⟩ := h.suffix
  exact (List.append_inj' happend hlen).2

/-- Statements are the same before other tokens that may follow them. -/
theorem StmtsAt.before (h : StmtsAt (ts ++ rest) body rest) (hends : EndsLike rest rest') :
    StmtsAt (ts ++ rest') body rest' := by
  obtain ⟨taken, htaken, hfreed⟩ := h.freed
  obtain rfl := List.append_cancel_right htaken
  exact hfreed rest' hends

end Rest

/-- Statements after statements. -/
theorem StmtsAt.append : ∀ {ts mid rest : List Token} {body body' : List Stmt},
    StmtsAt ts body mid → StmtsAt mid body' rest → StmtsAt ts (body ++ body') rest
  | _, _, _, _, _, .nil _, h' => h'
  | _, _, _, _, _, .semicolon ht hs, h' => .semicolon ht (hs.append h')
  | _, _, _, _, _, .cons hs hb, h' => .cons hs (hb.append h')

/-- **Composition.**  The tokens of two programs with a semicolon for the first end are a program:
the statements of the first and those of the second, relocated. -/
theorem ProgramAt.append {ts ts' : List Token} {prog prog' : Program} {t t' semicolon : Token}
    (h : ProgramAt (ts ++ [t]) prog) (h' : ProgramAt (ts' ++ [t']) prog')
    (hs : semicolon.kind = .semicolon) (r : Relocation) :
    ProgramAt (ts ++ semicolon :: (ts' ++ [t']).map (Token.relocate r))
      { stmts := prog.stmts ++ (prog'.relocate r).stmts } := by
  obtain ⟨u, hu, hstmts⟩ := programAt_iff.mp h
  obtain ⟨u', hu', hstmts'⟩ := programAt_iff.mp h'
  obtain rfl : u = t := List.singleton_inj.mp (hstmts.rest_eq rfl)
  refine programAt_iff.mpr ⟨u'.relocate r, hu', ?_⟩
  have hends : ∀ rest, EndsLike [u] (semicolon :: rest) := fun rest =>
    .mk (fun _ => by rw [hs]; rfl) (fun _ => by rw [hs]; rfl)
  exact (hstmts.before (hends _)).append (.semicolon hs (hstmts'.relocate r))

end Grammar

end ScriptLang
