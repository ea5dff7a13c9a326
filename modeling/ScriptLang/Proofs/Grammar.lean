import ScriptLang.Proofs.Parser.Layers

/-!
# Derivations

The grammar as relations between tokens, a tree and the tokens that follow it: `ExprAt ts e rest`
says that `ts` is an expression derived as `e` and then `rest`.  There are two rules beyond the
productions.  No operator follows an expression (`ItemsAt.nil`), and a `return` has a value just
when an expression can begin after it (`StmtAt.ret`, `StmtAt.retValue`).

The tree of operands with operators between them is given by priorities alone: at its root stands
the last of the operators that bind least (`Tree`).

* `tree_iff`: the stack of waiting operands builds that tree and no other.
* `startsExpr_iff`, `StmtAt.kind`: what expressions and statements begin with.
* `ExprAt.suffix` and its like: a derivation takes tokens from the front only.
* `programAt_iff`: semicolons around statements may be read one by one.
-/

namespace ScriptLang.Grammar

open ScriptLang.Parser (isLiteral startsExpr Waiting closeAbove closeAll Rising)

/-! ### Trees of operators -/

/-- An operator with its position and its right operand. -/
structure Item where
  op : BinOp
  span : Position
  operand : Expr

/-- The tree of an operand and the operators after it: operators before the root bind at least as
tight as it does, and those after it bind tighter. -/
inductive Tree : Expr → List Item → Expr → Prop where
  | single (first : Expr) : Tree first [] first
  | node {first lhs rhs : Expr} {before after : List Item} {i : Item}
      (hl : Tree first before lhs) (hr : Tree i.operand after rhs)
      (hb : ∀ j ∈ before, i.op.priority ≤ j.op.priority)
      (ha : ∀ j ∈ after, i.op.priority < j.op.priority) :
      Tree first (before ++ i :: after) (.binary i.op lhs rhs i.span)

/-- The root of a tree with operators. -/
theorem Tree.root {first e : Expr} {items : List Item} (h : Tree first items e) :
    items = [] ∧ e = first ∨ ∃ before i after lhs rhs, items = before ++ i :: after ∧
      e = .binary i.op lhs rhs i.span ∧ Tree first before lhs ∧ Tree i.operand after rhs ∧
      (∀ j ∈ before, i.op.priority ≤ j.op.priority) ∧
      ∀ j ∈ after, i.op.priority < j.op.priority := by
  cases h with
  | single => exact .inl ⟨rfl, rfl⟩
  | node hl hr hb ha => exact .inr ⟨_, _, _, _, _, rfl, rfl, hl, hr, hb, ha⟩

/-- Of two operators that could be the root, neither stands before the other. -/
theorem root_unique {before after before' after' : List Item} {i i' : Item}
    (h : before ++ i :: after = before' ++ i' :: after')
    (ha : ∀ j ∈ after, i.op.priority < j.op.priority)
    (hb' : ∀ j ∈ before', i'.op.priority ≤ j.op.priority) {extra : List Item}
    (he : before' = before ++ extra) : extra = [] := by
  subst he
  cases extra with
  | nil => rfl
  | cons x extra =>
      simp only [List.append_assoc, List.append_cancel_left_eq, List.cons_append,
        List.cons.injEq] at h
      obtain ⟨rfl, rfl⟩ := h
      have hlt := ha i' (by simp)
      have hle := hb' i (by simp)
      omega

/-- A tree is determined by its operands and operators. -/
theorem Tree.unique {first e e' : Expr} {items : List Item} (h : Tree first items e)
    (h' : Tree first items e') : e = e' := by
  induction h generalizing e' with
  | single first =>
      rcases h'.root with ⟨-, rfl⟩ | ⟨before, i, after, _, _, hi, -⟩
      · rfl
      · simp at hi
  | @node first lhs rhs before after i hl hr hb ha ihl ihr =>
      rcases h'.root with ⟨hi, -⟩ | ⟨before', i', after', lhs', rhs', hi, rfl, hl', hr', hb', ha'⟩
      · simp at hi
      -- Both roots are the last of the operators that bind least.
      have hsame : before = before' := by
        rcases List.append_eq_append_iff.mp hi with ⟨extra, he, -⟩ | ⟨extra, he, -⟩
        · rw [he, root_unique hi ha hb' he, List.append_nil]
        · rw [he, root_unique hi.symm ha' hb he, List.append_nil]
      subst hsame
      simp only [List.append_cancel_left_eq, List.cons.injEq] at hi
      obtain ⟨rfl, rfl⟩ := hi
      rw [ihl hl', ihr hr']

/-- The expression that the stack makes of operators and operands still to come. -/
def assemble (waiting : List Waiting) (rhs : Expr) : List Item → Expr
  | [] => closeAll waiting rhs
  | i :: items =>
    let closed := closeAbove i.op waiting rhs
    assemble ({ lhs := closed.2, op := i.op, span := i.span } :: closed.1) i.operand items

/-- What a stack stands for: `items` after `first` make the waiting operands and `rhs`, where the
operators inside `rhs` have a priority of at least `lo`. -/
def Stacked (first : Expr) (lo : Nat) : List Waiting → List Item → Expr → Prop
  | [], items, rhs => Tree first items rhs ∧ ∀ i ∈ items, lo ≤ i.op.priority
  | w :: ws, items, rhs => ∃ before operand after,
      items = before ++ ⟨w.op, w.span, operand⟩ :: after ∧ Tree operand after rhs ∧
      (∀ i ∈ after, w.op.priority < i.op.priority ∧ lo ≤ i.op.priority) ∧
      Stacked first w.op.priority ws before w.lhs

/-- Closing the last waiting operand makes its operator the root of what stands above the next. -/
theorem Stacked.close {first rhs : Expr} {lo : Nat} {w : Waiting} {ws : List Waiting}
    {items : List Item} (hr : Rising (w :: ws)) (h : Stacked first lo (w :: ws) items rhs)
    (hlo : lo ≤ w.op.priority) : Stacked first lo ws items (w.close rhs) := by
  obtain ⟨before, operand, after, rfl, ht, ha, hs⟩ := h
  cases ws with
  | nil =>
      refine ⟨.node (i := ⟨w.op, w.span, operand⟩) hs.1 ht hs.2 fun i hi => (ha i hi).1, ?_⟩
      intro i hi
      rcases List.mem_append.mp hi with hi | hi
      · exact Nat.le_trans hlo (hs.2 i hi)
      · rcases List.mem_cons.mp hi with rfl | hi
        · exact hlo
        · exact (ha i hi).2
  -- Everything above `v` binds tighter than `v`, and so does `w` by the order of the stack.
  | cons v vs =>
      have hv := (List.pairwise_cons.mp hr).1 v (List.mem_cons_self ..)
      obtain ⟨before', operand', after', rfl, ht', ha', hs'⟩ := hs
      refine ⟨before', operand', after' ++ ⟨w.op, w.span, operand⟩ :: after, by simp,
        .node (i := ⟨w.op, w.span, operand⟩) ht' ht (fun i hi => (ha' i hi).2)
          fun i hi => (ha i hi).1, ?_, hs'⟩
      intro i hi
      rcases List.mem_append.mp hi with hi | hi
      · exact ⟨(ha' i hi).1, Nat.le_trans hlo (ha' i hi).2⟩
      · rcases List.mem_cons.mp hi with rfl | hi
        · exact ⟨hv, hlo⟩
        · exact ⟨Nat.lt_trans hv (ha i hi).1, (ha i hi).2⟩

/-- An operator closes what binds at least as tight, and the stack stands for the same items. -/
theorem Stacked.closeAbove {first rhs : Expr} {op : BinOp} {ws : List Waiting} {items : List Item}
    (hr : Rising ws) (h : Stacked first op.priority ws items rhs) :
    Stacked first op.priority (closeAbove op ws rhs).1 items (closeAbove op ws rhs).2 := by
  induction ws generalizing rhs with
  | nil => exact h
  | cons w ws ih =>
      rw [Parser.closeAbove]
      split
      next hle => exact ih (List.pairwise_cons.mp hr).2 (h.close hr hle)
      next => exact h

/-- Once nothing can come any more, the stack is closed to the tree of all its items. -/
theorem Stacked.closeAll {first rhs : Expr} {ws : List Waiting} {items : List Item}
    (hr : Rising ws) (h : Stacked first 0 ws items rhs) : Tree first items (closeAll ws rhs) := by
  induction ws generalizing rhs with
  | nil => exact h.1
  | cons w ws ih => exact ih (List.pairwise_cons.mp hr).2 (h.close hr (Nat.zero_le _))

/-- **The invariant of the stack.**  Whatever comes after `items`, it is put into one tree with
them. -/
theorem Stacked.assemble {first rhs : Expr} {ws : List Waiting} {items : List Item}
    (hr : Rising ws) (h : ∀ lo, Stacked first lo ws items rhs) (more : List Item) :
    Tree first (items ++ more) (assemble ws rhs more) := by
  induction more generalizing ws items rhs with
  | nil =>
      rw [List.append_nil]
      exact (h 0).closeAll hr
  | cons i more ih =>
      -- The last operand stands alone above the new operator, so any `lo` will do.
      have hs := (h i.op.priority).closeAbove hr
      rw [List.append_cons]
      exact ih (hr.push i.op i.span rhs)
        fun lo => ⟨items, i.operand, [], rfl, .single _, by simp, hs⟩

/-- **The stack builds the tree of the priorities.** -/
theorem tree_iff {first e : Expr} {items : List Item} :
    Tree first items e ↔ e = assemble [] first items := by
  have hempty : ∀ lo, Stacked first lo [] [] first := fun lo => ⟨.single _, by simp⟩
  have htree : Tree first items _ := Stacked.assemble List.Pairwise.nil hempty items
  constructor
  · exact fun h => h.unique htree
  · rintro rfl
    exact htree

/-! ### Productions -/

/-- Parameters, each before a comma. -/
inductive ParamsAt : List Token → List Token → List Token → Prop where
  | nil (ts : List Token) : ParamsAt ts [] ts
  | cons {t c : Token} {ts params rest : List Token} (ht : t.kind = .identifier)
      (hc : c.kind = .comma) (hp : ParamsAt ts params rest) :
      ParamsAt (t :: c :: ts) (t :: params) rest

mutual

inductive PrimaryAt : List Token → Expr → List Token → Prop where
  | literal {t : Token} {rest : List Token} (ht : isLiteral t.kind) :
      PrimaryAt (t :: rest) (.literal t) rest
  | parens {t u : Token} {ts rest : List Token} {e : Expr} (ht : t.kind = .lParen)
      (he : ExprAt ts e (u :: rest)) (hu : u.kind = .rParen) : PrimaryAt (t :: ts) e rest
  | func {t c d u : Token} {ts mid params rest : List Token} {body : Block}
      (ht : t.kind = .lBracket) (hc : c.kind = .colon) (hp : ParamsAt ts params (d :: mid))
      (hd : d.kind = .colon) (hb : BlockAt mid body (u :: rest)) (hu : u.kind = .rBracket) :
      PrimaryAt (t :: c :: ts) (.func params body t.pos) rest
  | call {ts rest : List Token} {c : Call} (hc : CallAt ts c rest) : PrimaryAt ts (.call c) rest

inductive UnaryAt : List Token → Expr → List Token → Prop where
  | sign {t : Token} {ts rest : List Token} {op : UnaryOp} {e : Expr}
      (ht : UnaryOp.ofToken? t.kind = some op) (he : UnaryAt ts e rest) :
      UnaryAt (t :: ts) (.unary op e t.pos) rest
  | primary {ts rest : List Token} {e : Expr} (he : PrimaryAt ts e rest) : UnaryAt ts e rest

/-- Operators with their right operands, as many as follow. -/
inductive ItemsAt : List Token → List Item → List Token → Prop where
  | nil {t : Token} {rest : List Token} (ht : BinOp.ofToken? t.kind = none) :
      ItemsAt (t :: rest) [] (t :: rest)
  | cons {t : Token} {ts mid rest : List Token} {op : BinOp} {e : Expr} {items : List Item}
      (ht : BinOp.ofToken? t.kind = some op) (he : UnaryAt ts e mid)
      (hi : ItemsAt mid items rest) : ItemsAt (t :: ts) (⟨op, t.pos, e⟩ :: items) rest

inductive ExprAt : List Token → Expr → List Token → Prop where
  | mk {ts mid rest : List Token} {first e : Expr} {items : List Item}
      (hf : UnaryAt ts first mid) (hi : ItemsAt mid items rest) (ht : Tree first items e) :
      ExprAt ts e rest

/-- Arguments with commas between them; one may follow the last. -/
inductive ArgsAt : List Token → List Expr → List Token → Prop where
  | nil (ts : List Token) : ArgsAt ts [] ts
  | last {ts rest : List Token} {e : Expr} (he : ExprAt ts e rest) : ArgsAt ts [e] rest
  | cons {c : Token} {ts mid rest : List Token} {e : Expr} {es : List Expr}
      (he : ExprAt ts e (c :: mid)) (hc : c.kind = .comma) (hes : ArgsAt mid es rest) :
      ArgsAt ts (e :: es) rest

inductive CallAt : List Token → Call → List Token → Prop where
  | mk {t l u : Token} {ts mid rest : List Token} {callee : Expr} {args : List Expr}
      (ht : t.kind = .money) (hl : l.kind = .lParen) (he : ExprAt ts callee mid)
      (ha : ArgsAt mid args (u :: rest)) (hu : u.kind = .rParen) :
      CallAt (t :: l :: ts) (.mk callee args t.pos) rest

inductive StmtAt : List Token → Stmt → List Token → Prop where
  | assign {target is : Token} {ts rest : List Token} {e : Expr} (ht : target.kind = .identifier)
      (hi : is.kind = .is) (he : ExprAt ts e rest) :
      StmtAt (target :: is :: ts) (.assign target e target.pos) rest
  | define {k name is : Token} {ts rest : List Token} {e : Expr} (hk : k.kind = .defWord)
      (hn : name.kind = .identifier) (hi : is.kind = .is) (he : ExprAt ts e rest) :
      StmtAt (k :: name :: is :: ts) (.define name false e k.pos) rest
  | definePartial {k name c w is : Token} {ts rest : List Token} {e : Expr}
      (hk : k.kind = .defWord) (hn : name.kind = .identifier) (hc : c.kind = .colon)
      (hw : w.kind = .partialWord) (hi : is.kind = .is) (he : ExprAt ts e rest) :
      StmtAt (k :: name :: c :: w :: is :: ts) (.define name true e k.pos) rest
  | branch {k : Token} {ts mid rest : List Token} {e : Expr} {b : Block} (hk : k.kind = .whenWord)
      (he : ExprAt ts e mid) (hb : BlockAt mid b rest) :
      StmtAt (k :: ts) (.branch e b none k.pos) rest
  | branchElse {k c : Token} {ts mid mid' rest : List Token} {e : Expr} {b b' : Block}
      (hk : k.kind = .whenWord) (he : ExprAt ts e mid) (hb : BlockAt mid b (c :: mid'))
      (hc : c.kind = .colon) (hb' : BlockAt mid' b' rest) :
      StmtAt (k :: ts) (.branch e b (some b') k.pos) rest
  | loop {k : Token} {ts mid rest : List Token} {e : Expr} {b : Block} (hk : k.kind = .whileWord)
      (he : ExprAt ts e mid) (hb : BlockAt mid b rest) : StmtAt (k :: ts) (.loop e b k.pos) rest
  | ret {k t : Token} {rest : List Token} (hk : k.kind = .returnWord)
      (ht : startsExpr t.kind = false) : StmtAt (k :: t :: rest) (.ret none k.pos) (t :: rest)
  | retValue {k t : Token} {ts rest : List Token} {e : Expr} (hk : k.kind = .returnWord)
      (ht : startsExpr t.kind) (he : ExprAt (t :: ts) e rest) :
      StmtAt (k :: t :: ts) (.ret (some e) k.pos) rest
  | call {ts rest : List Token} {c : Call} (hc : CallAt ts c rest) : StmtAt ts (.call c) rest
  | block {ts rest : List Token} {b : Block} (hb : BlockAt ts b rest) : StmtAt ts (.block b) rest

/-- Statements and semicolons in any order. -/
inductive StmtsAt : List Token → List Stmt → List Token → Prop where
  | nil (ts : List Token) : StmtsAt ts [] ts
  | semicolon {t : Token} {ts rest : List Token} {body : List Stmt} (ht : t.kind = .semicolon)
      (hs : StmtsAt ts body rest) : StmtsAt (t :: ts) body rest
  | cons {ts mid rest : List Token} {s : Stmt} {body : List Stmt} (hs : StmtAt ts s mid)
      (hb : StmtsAt mid body rest) : StmtsAt ts (s :: body) rest

inductive BlockAt : List Token → Block → List Token → Prop where
  | mk {t u : Token} {ts rest : List Token} {body : List Stmt} (ht : t.kind = .lBrace)
      (hs : StmtsAt ts body (u :: rest)) (hu : u.kind = .rBrace) :
      BlockAt (t :: ts) (.mk body t.pos) rest

end

inductive SemicolonsAt : List Token → List Token → Prop where
  | nil (ts : List Token) : SemicolonsAt ts ts
  | cons {t : Token} {ts rest : List Token} (ht : t.kind = .semicolon)
      (hs : SemicolonsAt ts rest) : SemicolonsAt (t :: ts) rest

/-- Statements, each with the semicolons after it. -/
inductive BodyAt : List Token → List Stmt → List Token → Prop where
  | nil (ts : List Token) : BodyAt ts [] ts
  | cons {ts mid mid' rest : List Token} {s : Stmt} {body : List Stmt} (hs : StmtAt ts s mid)
      (hc : SemicolonsAt mid mid') (hb : BodyAt mid' body rest) : BodyAt ts (s :: body) rest

/-- All tokens of a source, derived as a program. -/
inductive ProgramAt : List Token → Program → Prop where
  | mk {ts mid : List Token} {body : List Stmt} {t : Token} (hc : SemicolonsAt ts mid)
      (hb : BodyAt mid body [t]) (ht : t.kind = .eof) : ProgramAt ts { stmts := body }

/-! ### First tokens -/

theorem CallAt.kind {ts rest : List Token} {c : Call} (h : CallAt ts c rest) :
    ∃ t ts', ts = t :: ts' ∧ t.kind = .money := by
  cases h with
  | mk ht => exact ⟨_, _, rfl, ht⟩

theorem BlockAt.kind {ts rest : List Token} {b : Block} (h : BlockAt ts b rest) :
    ∃ t ts', ts = t :: ts' ∧ t.kind = .lBrace := by
  cases h with
  | mk ht => exact ⟨_, _, rfl, ht⟩

/-- An operand without signs begins with a token that begins expressions and is no sign. -/
theorem PrimaryAt.startsExpr {ts rest : List Token} {e : Expr} (h : PrimaryAt ts e rest) :
    ∃ t ts', ts = t :: ts' ∧ startsExpr t.kind ∧ UnaryOp.ofToken? t.kind = none := by
  cases h with
  | @literal t _ ht =>
      refine ⟨_, _, rfl, by simp [Parser.startsExpr, ht], ?_⟩
      revert ht
      cases t.kind <;> simp [isLiteral, UnaryOp.ofToken?]
  | parens ht => exact ⟨_, _, rfl, by rw [ht]; exact ⟨rfl, rfl⟩⟩
  | func ht => exact ⟨_, _, rfl, by rw [ht]; exact ⟨rfl, rfl⟩⟩
  | call hc =>
      obtain ⟨t, ts', rfl, ht⟩ := hc.kind
      exact ⟨_, _, rfl, by rw [ht]; exact ⟨rfl, rfl⟩⟩

theorem UnaryAt.startsExpr {ts rest : List Token} {e : Expr} (h : UnaryAt ts e rest) :
    ∃ t ts', ts = t :: ts' ∧ startsExpr t.kind := by
  cases h with
  | @sign t _ _ _ _ ht =>
      refine ⟨_, _, rfl, ?_⟩
      revert ht
      cases t.kind <;> simp [Parser.startsExpr, UnaryOp.ofToken?]
  | primary he =>
      obtain ⟨t, ts', rfl, ht, -⟩ := he.startsExpr
      exact ⟨t, ts', rfl, ht⟩

/-- Every expression begins with a token of the kinds that can begin one. -/
theorem ExprAt.startsExpr {ts rest : List Token} {e : Expr} (h : ExprAt ts e rest) :
    ∃ t ts', ts = t :: ts' ∧ startsExpr t.kind := by
  cases h with
  | mk hf => exact hf.startsExpr

/-- The kinds of token that can begin an expression are those that begin one. -/
theorem startsExpr_iff {kind : TokenKind} : startsExpr kind ↔
    ∃ t ts e rest, t.kind = kind ∧ ExprAt (t :: ts) e rest := by
  constructor
  · intro h
    let tok (kind : TokenKind) : Token := ⟨kind, none, default⟩
    have literal : ∀ kind u rest, isLiteral kind → BinOp.ofToken? u.kind = none →
        ExprAt (tok kind :: u :: rest) (.literal (tok kind)) (u :: rest) :=
      fun _ _ _ hl hu => .mk (.primary (.literal hl)) (.nil hu) (.single _)
    -- One short expression for every kind.
    simp only [Parser.startsExpr, Bool.or_eq_true, beq_iff_eq] at h
    rcases h with ((((h | rfl) | rfl) | rfl) | rfl) | rfl
    · exact ⟨_, _, _, _, rfl, literal kind (tok .eof) [] h rfl⟩
    · exact ⟨tok .lParen, [tok .nilWord, tok .rParen, tok .eof], _, _, rfl,
        .mk (.primary (.parens rfl (literal .nilWord _ _ rfl rfl) rfl)) (.nil rfl) (.single _)⟩
    · exact ⟨tok .lBracket, [tok .colon, tok .colon, tok .lBrace, tok .rBrace, tok .rBracket,
        tok .eof], _, _, rfl, .mk (.primary (.func rfl rfl (.nil _) rfl (.mk rfl (.nil _) rfl) rfl))
        (.nil rfl) (.single _)⟩
    · exact ⟨tok .money, [tok .lParen, tok .nilWord, tok .rParen, tok .eof], _, _, rfl,
        .mk (.primary (.call (.mk rfl rfl (literal .nilWord _ _ rfl rfl) (.nil _) rfl)))
        (.nil rfl) (.single _)⟩
    · exact ⟨tok .not, [tok .nilWord, tok .eof], _, _, rfl,
        .mk (.sign rfl (.primary (.literal rfl))) (.nil rfl) (.single _)⟩
    · exact ⟨tok .minus, [tok .nilWord, tok .eof], _, _, rfl,
        .mk (.sign rfl (.primary (.literal rfl))) (.nil rfl) (.single _)⟩
  · rintro ⟨t, ts, e, rest, rfl, h⟩
    obtain ⟨_, _, ⟨⟩, ht⟩ := h.startsExpr
    exact ht

/-- The kind of token that a statement begins with. -/
def firstKind : Stmt → TokenKind
  | .assign .. => .identifier
  | .define .. => .defWord
  | .branch .. => .whenWord
  | .loop .. => .whileWord
  | .ret .. => .returnWord
  | .call _ => .money
  | .block _ => .lBrace

/-- A statement is told by its first token. -/
theorem StmtAt.kind {ts rest : List Token} {s : Stmt} (h : StmtAt ts s rest) :
    ∃ t ts', ts = t :: ts' ∧ t.kind = firstKind s := by
  cases h with
  | assign h | define h | definePartial h | branch h | branchElse h | loop h | ret h | retValue h =>
      exact ⟨_, _, rfl, h⟩
  | call hc => exact hc.kind
  | block hb => exact hb.kind

/-! ### What follows a derivation -/

open List (suffix_cons suffix_refl)

theorem ParamsAt.suffix {ts params rest : List Token} (h : ParamsAt ts params rest) :
    rest <:+ ts := by
  induction h with
  | nil => exact suffix_refl _
  | cons _ _ _ ih => exact ih.trans ((suffix_cons _ _).trans (suffix_cons _ _))

mutual

/-- **A derivation takes tokens from the front**, and what it leaves is the end of what it began
with. -/
theorem PrimaryAt.suffix : ∀ {ts e rest}, PrimaryAt ts e rest → rest <:+ ts
  | _, _, _, .literal _ => suffix_cons _ _
  | _, _, _, .parens _ he _ => (suffix_cons _ _).trans (he.suffix.trans (suffix_cons _ _))
  | _, _, _, .func _ _ hp _ hb _ =>
      (suffix_cons _ _).trans <| hb.suffix.trans <| (suffix_cons _ _).trans <| hp.suffix.trans <|
        (suffix_cons _ _).trans (suffix_cons _ _)
  | _, _, _, .call hc => hc.suffix

theorem UnaryAt.suffix : ∀ {ts e rest}, UnaryAt ts e rest → rest <:+ ts
  | _, _, _, .sign _ he => he.suffix.trans (suffix_cons _ _)
  | _, _, _, .primary he => he.suffix

theorem ItemsAt.suffix : ∀ {ts items rest}, ItemsAt ts items rest → rest <:+ ts
  | _, _, _, .nil _ => suffix_refl _
  | _, _, _, .cons _ he hi => hi.suffix.trans (he.suffix.trans (suffix_cons _ _))

/-- What follows an expression is the end of the tokens it begins. -/
theorem ExprAt.suffix : ∀ {ts e rest}, ExprAt ts e rest → rest <:+ ts
  | _, _, _, .mk hf hi _ => hi.suffix.trans hf.suffix

theorem ArgsAt.suffix : ∀ {ts args rest}, ArgsAt ts args rest → rest <:+ ts
  | _, _, _, .nil _ => suffix_refl _
  | _, _, _, .last he => he.suffix
  | _, _, _, .cons he _ hes => hes.suffix.trans ((suffix_cons _ _).trans he.suffix)

theorem CallAt.suffix : ∀ {ts c rest}, CallAt ts c rest → rest <:+ ts
  | _, _, _, .mk _ _ he ha _ =>
      (suffix_cons _ _).trans <| ha.suffix.trans <| he.suffix.trans <|
        (suffix_cons _ _).trans (suffix_cons _ _)

theorem StmtAt.suffix : ∀ {ts s rest}, StmtAt ts s rest → rest <:+ ts
  | _, _, _, .assign _ _ he => he.suffix.trans ((suffix_cons _ _).trans (suffix_cons _ _))
  | _, _, _, .define _ _ _ he =>
      he.suffix.trans <| (suffix_cons _ _).trans <| (suffix_cons _ _).trans (suffix_cons _ _)
  | _, _, _, .definePartial _ _ _ _ _ he =>
      he.suffix.trans <| (suffix_cons _ _).trans <| (suffix_cons _ _).trans <|
        (suffix_cons _ _).trans <| (suffix_cons _ _).trans (suffix_cons _ _)
  | _, _, _, .branch _ he hb | _, _, _, .loop _ he hb =>
      hb.suffix.trans (he.suffix.trans (suffix_cons _ _))
  | _, _, _, .branchElse _ he hb _ hb' =>
      hb'.suffix.trans <| (suffix_cons _ _).trans <| hb.suffix.trans <|
        he.suffix.trans (suffix_cons _ _)
  | _, _, _, .ret _ _ => suffix_cons _ _
  | _, _, _, .retValue _ _ he => he.suffix.trans (suffix_cons _ _)
  | _, _, _, .call hc => hc.suffix
  | _, _, _, .block hb => hb.suffix

theorem StmtsAt.suffix : ∀ {ts body rest}, StmtsAt ts body rest → rest <:+ ts
  | _, _, _, .nil _ => suffix_refl _
  | _, _, _, .semicolon _ hs => hs.suffix.trans (suffix_cons _ _)
  | _, _, _, .cons hs hb => hb.suffix.trans hs.suffix

theorem BlockAt.suffix : ∀ {ts b rest}, BlockAt ts b rest → rest <:+ ts
  | _, _, _, .mk _ hs _ => (suffix_cons _ _).trans (hs.suffix.trans (suffix_cons _ _))

end

/-! ### Semicolons -/

/-- Statements may stand behind semicolons. -/
theorem SemicolonsAt.stmts {ts mid rest : List Token} {body : List Stmt}
    (h : SemicolonsAt ts mid) (hb : StmtsAt mid body rest) : StmtsAt ts body rest := by
  induction h with
  | nil => exact hb
  | cons ht _ ih => exact .semicolon ht (ih hb)

/-- A body is statements: the semicolons behind each of them stand before the next. -/
theorem BodyAt.stmts {ts rest : List Token} {body : List Stmt} (h : BodyAt ts body rest) :
    StmtsAt ts body rest := by
  induction h with
  | nil => exact .nil _
  | cons hs hc _ ih => exact .cons hs (hc.stmts ih)

/-- Statements are a body behind the semicolons they begin with. -/
theorem StmtsAt.body : ∀ {ts rest : List Token} {body : List Stmt}, StmtsAt ts body rest →
    ∃ mid, SemicolonsAt ts mid ∧ BodyAt mid body rest
  | _, _, _, .nil ts => ⟨ts, .nil ts, .nil ts⟩
  | _, _, _, .semicolon ht hs => by
      obtain ⟨mid, hc, hb⟩ := hs.body
      exact ⟨mid, .cons ht hc, hb⟩
  | _, _, _, .cons hs hb => by
      obtain ⟨mid, hc, hb⟩ := hb.body
      exact ⟨_, .nil _, .cons hs hc hb⟩

/-- A program is statements and semicolons up to the end of the source. -/
theorem programAt_iff {ts : List Token} {prog : Program} :
    ProgramAt ts prog ↔ ∃ t, t.kind = .eof ∧ StmtsAt ts prog.stmts [t] := by
  constructor
  · rintro ⟨hc, hb, ht⟩
    exact ⟨_, ht, hc.stmts hb.stmts⟩
  · rintro ⟨t, ht, hs⟩
    obtain ⟨mid, hc, hb⟩ := hs.body
    exact .mk hc hb ht

end ScriptLang.Grammar
