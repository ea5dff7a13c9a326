import ScriptLang.Proofs.Grammar

/-!
# The kinds of the tokens in a tree

A tree holds tokens in four places: what is assigned to and what is defined, the parameters of
functions, and literals.  `WellKinded` says of which kinds they have to be.  Every tree that the
grammar derives is `WellKinded`, because each production that makes one of these tokens asks for its
kind.

* `ExprAt.wellKinded`, `StmtAt.wellKinded` and their like, by induction on derivations.
-/

namespace ScriptLang

/-- The kinds of literals. -/
def TokenKind.literals : List TokenKind :=
  [.identifier, .number, .str, .trueWord, .falseWord, .nilWord]

mutual

/-- Parameters and names are identifiers, and literals are of a kind that literals have. -/
def Expr.WellKinded : Expr → Prop
  | .literal t => t.kind ∈ TokenKind.literals
  | .unary _ operand _ => operand.WellKinded
  | .binary _ lhs rhs _ => lhs.WellKinded ∧ rhs.WellKinded
  | .func params body _ => (∀ t ∈ params, t.kind = .identifier) ∧ body.WellKinded
  | .call c => c.WellKinded

def Call.WellKinded : Call → Prop
  | .mk callee args _ => callee.WellKinded ∧ Expr.WellKindedAll args

def Expr.WellKindedAll : List Expr → Prop
  | [] => True
  | e :: es => e.WellKinded ∧ Expr.WellKindedAll es

def Stmt.WellKinded : Stmt → Prop
  | .assign target value _ => target.kind = .identifier ∧ value.WellKinded
  | .define name _ value _ => name.kind = .identifier ∧ value.WellKinded
  | .branch condition body none _ => condition.WellKinded ∧ body.WellKinded
  | .branch condition body (some elseBody) _ =>
    condition.WellKinded ∧ body.WellKinded ∧ elseBody.WellKinded
  | .loop condition body _ => condition.WellKinded ∧ body.WellKinded
  | .ret none _ => True
  | .ret (some value) _ => value.WellKinded
  | .call c => c.WellKinded
  | .block b => b.WellKinded

def Stmt.WellKindedAll : List Stmt → Prop
  | [] => True
  | s :: body => s.WellKinded ∧ Stmt.WellKindedAll body

def Block.WellKinded : Block → Prop
  | .mk body _ => Stmt.WellKindedAll body

end

namespace Grammar

open ScriptLang.Parser (isLiteral)

theorem mem_literals {kind : TokenKind} (h : isLiteral kind) : kind ∈ TokenKind.literals := by
  revert h
  cases kind <;> decide

theorem ParamsAt.identifiers {ts params rest : List Token} (h : ParamsAt ts params rest) :
    ∀ t ∈ params, t.kind = .identifier := by
  induction h with
  | nil => exact List.forall_mem_nil _
  | cons ht _ _ ih => exact List.forall_mem_cons.mpr ⟨ht, ih⟩

/-- A tree is well kinded if its leaves are: it only adds operators. -/
theorem Tree.wellKinded {first e : Expr} {items : List Item} (h : Tree first items e)
    (hf : first.WellKinded) (hi : ∀ i ∈ items, i.operand.WellKinded) : e.WellKinded := by
  induction h with
  | single => exact hf
  | node _ _ _ _ ihl ihr =>
      simp only [List.forall_mem_append, List.forall_mem_cons] at hi
      exact ⟨ihl hf hi.1, ihr hi.2.1 hi.2.2⟩

mutual

theorem PrimaryAt.wellKinded : ∀ {ts e rest}, PrimaryAt ts e rest → e.WellKinded
  | _, _, _, .literal ht => mem_literals ht
  | _, _, _, .parens _ he _ => he.wellKinded
  | _, _, _, .func _ _ hp _ hb _ => ⟨hp.identifiers, hb.wellKinded⟩
  | _, _, _, .call hc => hc.wellKinded

theorem UnaryAt.wellKinded : ∀ {ts e rest}, UnaryAt ts e rest → e.WellKinded
  | _, _, _, .sign _ he => he.wellKinded
  | _, _, _, .primary he => he.wellKinded

theorem ItemsAt.wellKinded :
    ∀ {ts items rest}, ItemsAt ts items rest → ∀ i ∈ items, i.operand.WellKinded
  | _, _, _, .nil _ => List.forall_mem_nil _
  | _, _, _, .cons _ he hi => List.forall_mem_cons.mpr ⟨he.wellKinded, hi.wellKinded⟩

/-- **Expressions that the grammar derives are well kinded.** -/
theorem ExprAt.wellKinded : ∀ {ts e rest}, ExprAt ts e rest → e.WellKinded
  | _, _, _, .mk hf hi ht => ht.wellKinded hf.wellKinded hi.wellKinded

theorem ArgsAt.wellKinded : ∀ {ts args rest}, ArgsAt ts args rest → Expr.WellKindedAll args
  | _, _, _, .nil _ => trivial
  | _, _, _, .last he => ⟨he.wellKinded, trivial⟩
  | _, _, _, .cons he _ hes => ⟨he.wellKinded, hes.wellKinded⟩

theorem CallAt.wellKinded : ∀ {ts c rest}, CallAt ts c rest → c.WellKinded
  | _, _, _, .mk _ _ he ha _ => ⟨he.wellKinded, ha.wellKinded⟩

/-- **Statements that the grammar derives are well kinded.** -/
theorem StmtAt.wellKinded : ∀ {ts s rest}, StmtAt ts s rest → s.WellKinded
  | _, _, _, .assign ht _ he => ⟨ht, he.wellKinded⟩
  | _, _, _, .define _ hn _ he => ⟨hn, he.wellKinded⟩
  | _, _, _, .definePartial _ hn _ _ _ he => ⟨hn, he.wellKinded⟩
  | _, _, _, .branch _ he hb => ⟨he.wellKinded, hb.wellKinded⟩
  | _, _, _, .branchElse _ he hb _ hb' => ⟨he.wellKinded, hb.wellKinded, hb'.wellKinded⟩
  | _, _, _, .loop _ he hb => ⟨he.wellKinded, hb.wellKinded⟩
  | _, _, _, .ret _ _ => trivial
  | _, _, _, .retValue _ _ he => he.wellKinded
  | _, _, _, .call hc => hc.wellKinded
  | _, _, _, .block hb => hb.wellKinded

theorem StmtsAt.wellKinded : ∀ {ts body rest}, StmtsAt ts body rest → Stmt.WellKindedAll body
  | _, _, _, .nil _ => trivial
  | _, _, _, .semicolon _ hs => hs.wellKinded
  | _, _, _, .cons hs hb => ⟨hs.wellKinded, hb.wellKinded⟩

theorem BlockAt.wellKinded : ∀ {ts b rest}, BlockAt ts b rest → b.WellKinded
  | _, _, _, .mk _ hs _ => hs.wellKinded

end

end Grammar

end ScriptLang
