import ScriptLang.Proofs.Lexer.Spelling
import ScriptLang.Proofs.Parser.Correctness

/-!
# Parsing undoes printing

A plain tree is a syntax tree over words: it has texts in place of handles and no positions.  The
tree of a source is made plain with the table of the source (`Program.plain`).

`print` writes a plain program with a space between all words, every operand, callee, argument and
condition in parentheses and every statement before a semicolon.

* `stmtsAt_words` and its like: tokens that spell a plain tree derive a tree that is made plain to
  it.
* **Round trip** (`parse_print`).  A printed program is read back, if its words fit into the buffer.
-/

namespace ScriptLang

/-! ### Plain trees -/

namespace Plain

mutual

/-- Expressions over words. -/
inductive Expr where
  | literal (word : Word)
  | unary (op : UnaryOp) (operand : Expr)
  | binary (op : BinOp) (lhs rhs : Expr)
  | func (params : List Word) (body : List Stmt)
  | call (callee : Expr) (args : List Expr)

/-- Statements over words. -/
inductive Stmt where
  | assign (target : Word) (value : Expr)
  | define (name : Word) (isPartial : Bool) (value : Expr)
  | branch (condition : Expr) (body : List Stmt)
  | branchElse (condition : Expr) (body elseBody : List Stmt)
  | loop (condition : Expr) (body : List Stmt)
  | ret
  | retValue (value : Expr)
  | call (callee : Expr) (args : List Expr)
  | block (body : List Stmt)

end

end Plain

mutual

/-- An expression without positions, its texts taken from the table. -/
def Expr.plain (table : Intern.Table) : Expr → Plain.Expr
  | .literal t => .literal (t.word table)
  | .unary op operand _ => .unary op (operand.plain table)
  | .binary op lhs rhs _ => .binary op (lhs.plain table) (rhs.plain table)
  | .func params body _ => .func (params.map (Token.word table)) (body.plain table)
  | .call (.mk callee args _) => .call (callee.plain table) (Expr.plainAll table args)

def Expr.plainAll (table : Intern.Table) : List Expr → List Plain.Expr
  | [] => []
  | e :: es => e.plain table :: Expr.plainAll table es

def Stmt.plain (table : Intern.Table) : Stmt → Plain.Stmt
  | .assign target value _ => .assign (target.word table) (value.plain table)
  | .define name isPartial value _ => .define (name.word table) isPartial (value.plain table)
  | .branch condition body none _ => .branch (condition.plain table) (body.plain table)
  | .branch condition body (some elseBody) _ =>
    .branchElse (condition.plain table) (body.plain table) (elseBody.plain table)
  | .loop condition body _ => .loop (condition.plain table) (body.plain table)
  | .ret none _ => .ret
  | .ret (some value) _ => .retValue (value.plain table)
  | .call (.mk callee args _) => .call (callee.plain table) (Expr.plainAll table args)
  | .block body => .block (body.plain table)

def Stmt.plainAll (table : Intern.Table) : List Stmt → List Plain.Stmt
  | [] => []
  | s :: body => s.plain table :: Stmt.plainAll table body

def Block.plain (table : Intern.Table) : Block → List Plain.Stmt
  | .mk body _ => Stmt.plainAll table body

end

/-- The statements of a program without positions, their texts taken from the table. -/
def Program.plain (table : Intern.Table) (prog : Program) : List Plain.Stmt :=
  Stmt.plainAll table prog.stmts

/-! ### Printing -/

/-- The token of a unary operator. -/
def UnaryOp.kind : UnaryOp → TokenKind
  | not => .not
  | neg => .minus

/-- The token of a binary operator. -/
def BinOp.kind : BinOp → TokenKind
  | mul => .mul
  | div => .div
  | add => .add
  | sub => .minus
  | ge => .ge
  | gt => .gt
  | le => .le
  | lt => .lt
  | eq => .eq
  | neq => .neq
  | and => .and
  | or => .or

theorem UnaryOp.ofToken?_kind (op : UnaryOp) : ofToken? op.kind = some op := by
  cases op <;> rfl

theorem BinOp.ofToken?_kind (op : BinOp) : ofToken? op.kind = some op := by
  cases op <;> rfl

namespace Plain

/-- The word of a kind that has no text. -/
def sign (kind : TokenKind) : Word := { kind := kind, text := none }

/-- Words in parentheses. -/
def parens (words : List Word) : List Word := sign .lParen :: (words ++ [sign .rParen])

/-- Words in braces. -/
def braces (words : List Word) : List Word := sign .lBrace :: (words ++ [sign .rBrace])

mutual

/-- The words of an expression. -/
def Expr.words : Expr → List Word
  | .literal word => [word]
  | .unary op operand => sign op.kind :: parens operand.words
  | .binary op lhs rhs => parens lhs.words ++ sign op.kind :: parens rhs.words
  | .func params body =>
    sign .lBracket :: sign .colon :: (params.flatMap (fun p => [p, sign .comma]) ++
      sign .colon :: (braces (Stmt.wordsAll body) ++ [sign .rBracket]))
  | .call callee args =>
    sign .money :: parens (parens callee.words ++ Expr.wordsAll args)

/-- The words of arguments, with commas between them. -/
def Expr.wordsAll : List Expr → List Word
  | [] => []
  | arg :: args =>
    parens arg.words ++ if args.isEmpty then [] else sign .comma :: Expr.wordsAll args

/-- The words of a statement. -/
def Stmt.words : Stmt → List Word
  | .assign target value => target :: sign .is :: value.words
  | .define name isPartial value =>
    sign .defWord :: name :: ((if isPartial then [sign .colon, sign .partialWord] else []) ++
      sign .is :: value.words)
  | .branch condition body =>
    sign .whenWord :: (parens condition.words ++ braces (Stmt.wordsAll body))
  | .branchElse condition body elseBody =>
    sign .whenWord :: (parens condition.words ++ (braces (Stmt.wordsAll body) ++
      sign .colon :: braces (Stmt.wordsAll elseBody)))
  | .loop condition body =>
    sign .whileWord :: (parens condition.words ++ braces (Stmt.wordsAll body))
  | .ret => [sign .returnWord]
  | .retValue value => sign .returnWord :: value.words
  | .call callee args =>
    sign .money :: parens (parens callee.words ++ Expr.wordsAll args)
  | .block body => braces (Stmt.wordsAll body)

/-- The words of statements, with a semicolon behind each. -/
def Stmt.wordsAll : List Stmt → List Word
  | [] => []
  | s :: body => s.words ++ sign .semicolon :: Stmt.wordsAll body

end

/-- The source of a plain program. -/
def print (prog : List Stmt) : Text := render (Stmt.wordsAll prog)

mutual

/-- Whether an expression has names for parameters and literals for literals. -/
def Expr.shaped : Expr → Bool
  | .literal word => Parser.isLiteral word.kind
  | .unary _ operand => operand.shaped
  | .binary _ lhs rhs => lhs.shaped && rhs.shaped
  | .func params body => params.all (·.kind == .identifier) && Stmt.shapedAll body
  | .call callee args => callee.shaped && Expr.shapedAll args

def Expr.shapedAll : List Expr → Bool
  | [] => true
  | e :: es => e.shaped && Expr.shapedAll es

/-- Whether a statement has names for its targets, and shaped expressions. -/
def Stmt.shaped : Stmt → Bool
  | .assign target value => target.kind == .identifier && value.shaped
  | .define name _ value => name.kind == .identifier && value.shaped
  | .branch condition body => condition.shaped && Stmt.shapedAll body
  | .branchElse condition body elseBody =>
    condition.shaped && Stmt.shapedAll body && Stmt.shapedAll elseBody
  | .loop condition body => condition.shaped && Stmt.shapedAll body
  | .ret => true
  | .retValue value => value.shaped
  | .call callee args => callee.shaped && Expr.shapedAll args
  | .block body => Stmt.shapedAll body

def Stmt.shapedAll : List Stmt → Bool
  | [] => true
  | s :: body => s.shaped && Stmt.shapedAll body

end

/-- Whether a plain program is a program over texts that their kinds allow, of at most so many
bytes. -/
def wellFormed (limit : Nat) (prog : List Stmt) : Bool :=
  Stmt.shapedAll prog && (Stmt.wordsAll prog).all (·.wellFormed limit)

/-! ### Derivations of spelled trees -/

section Derivations

open Grammar

variable {table : Intern.Table} {α : Type}

/-- Tokens that spell `words`, before a token that `F` allows, derive by `R` something that `P`
holds of. -/
def Derives (table : Intern.Table) (R : List Token → α → List Token → Prop) (words : List Word)
    (F : TokenKind → Prop) (P : α → Prop) : Prop :=
  ∀ ts u rest, ts.map (Token.word table) = words → F u.kind →
    ∃ a, R (ts ++ u :: rest) a (u :: rest) ∧ P a

theorem kind_of_word {t : Token} {w : Word} (h : t.word table = w) : t.kind = w.kind :=
  h ▸ rfl

/-- An expression in parentheses is an operand, and no matter what follows. -/
theorem Derives.parens {words : List Word} {P : ScriptLang.Expr → Prop}
    (h : Derives table ExprAt words (BinOp.ofToken? · = none) P) :
    Derives table UnaryAt (parens words) (fun _ => True) P := by
  intro ts u rest hts _
  simp only [Plain.parens, List.map_eq_cons_iff, List.map_eq_append_iff] at hts
  obtain ⟨t, _, rfl, ht, ts', _, rfl, hts', c, _, rfl, hc, hnil⟩ := hts
  rw [List.map_eq_nil_iff] at hnil
  subst hnil
  obtain ⟨e, he, hP⟩ := h ts' c (u :: rest) hts' (by rw [kind_of_word hc]; rfl)
  refine ⟨e, ?_, hP⟩
  simpa using UnaryAt.primary (.parens (kind_of_word ht) he (kind_of_word hc))

/-- An operand is an expression where no operator follows. -/
theorem Derives.expr {words : List Word} {P : ScriptLang.Expr → Prop}
    (h : Derives table UnaryAt words (fun _ => True) P) :
    Derives table ExprAt words (BinOp.ofToken? · = none) P := by
  intro ts u rest hts hu
  obtain ⟨e, he, hP⟩ := h ts u rest hts trivial
  exact ⟨e, .mk he (.nil hu) (.single e), hP⟩

/-- Statements in braces are a block. -/
theorem Derives.braces {body : List Stmt}
    (h : Derives table StmtsAt (Stmt.wordsAll body) (fun _ => True)
      fun body' => Stmt.plainAll table body' = body) :
    Derives table BlockAt (braces (Stmt.wordsAll body)) (fun _ => True)
      fun b => b.plain table = body := by
  intro ts u rest hts _
  simp only [Plain.braces, List.map_eq_cons_iff, List.map_eq_append_iff] at hts
  obtain ⟨t, _, rfl, ht, ts', _, rfl, hts', c, _, rfl, hc, hnil⟩ := hts
  rw [List.map_eq_nil_iff] at hnil
  subst hnil
  obtain ⟨body', hbody, hP⟩ := h ts' c (u :: rest) hts' trivial
  refine ⟨.mk body' t.pos, ?_, hP⟩
  simpa using BlockAt.mk (kind_of_word ht) hbody (kind_of_word hc)

/-- Names with a comma behind each are parameters. -/
theorem derives_params {params : List Word} (hp : params.all (·.kind == .identifier)) :
    Derives table ParamsAt (params.flatMap fun p => [p, sign .comma]) (fun _ => True)
      fun params' => params'.map (Token.word table) = params := by
  intro ts u rest hts _
  induction params generalizing ts with
  | nil =>
      rw [List.flatMap_nil, List.map_eq_nil_iff] at hts
      subst hts
      exact ⟨[], .nil _, rfl⟩
  | cons p params ih =>
      simp only [List.flatMap_cons, List.cons_append, List.nil_append, List.map_eq_cons_iff] at hts
      obtain ⟨t, _, rfl, ht, c, ts', rfl, hc, hts'⟩ := hts
      simp only [List.all_cons, Bool.and_eq_true, beq_iff_eq] at hp
      obtain ⟨params', hparams, hmap⟩ := ih hp.2 ts' hts'
      exact ⟨t :: params', .cons ((kind_of_word ht).trans hp.1) (kind_of_word hc) hparams,
        show List.map _ _ = _ by rw [List.map_cons, ht, hmap]⟩

/-- A condition and a block. -/
theorem Derives.guarded {condition : Expr} {body : List Stmt}
    (hc : Derives table ExprAt condition.words (BinOp.ofToken? · = none)
      fun e => e.plain table = condition)
    (hb : Derives table StmtsAt (Stmt.wordsAll body) (fun _ => True)
      fun body' => Stmt.plainAll table body' = body) :
    Derives table (fun ts (g : ScriptLang.Expr × Block) rest =>
        ∃ mid, ExprAt ts g.1 mid ∧ BlockAt mid g.2 rest)
      (Plain.parens condition.words ++ Plain.braces (Stmt.wordsAll body)) (fun _ => True)
      fun g => g.1.plain table = condition ∧ g.2.plain table = body := by
  intro ts u rest hts _
  obtain ⟨tc, tb, rfl, htc, htb⟩ := List.map_eq_append_iff.mp hts
  obtain ⟨v, vs, rfl, hv, -⟩ := List.map_eq_cons_iff.mp htb
  have hop : BinOp.ofToken? v.kind = none := by rw [kind_of_word hv]; rfl
  obtain ⟨e, he, hP⟩ := hc.parens.expr tc v (vs ++ u :: rest) htc hop
  obtain ⟨b, hb', hbP⟩ := hb.braces (v :: vs) u rest htb trivial
  exact ⟨(e, b), ⟨_, by simpa using he, hb'⟩, hP, hbP⟩

/-- Arguments begin with a parenthesis if there are any, and end before one. -/
theorem wordsAll_next {args : List Expr} {ts : List Token}
    (hts : ts.map (Token.word table) = Expr.wordsAll args) {c : Token} (hc : c.kind = .rParen)
    (rest : List Token) :
    ∃ v vs, ts ++ c :: rest = v :: vs ∧ BinOp.ofToken? v.kind = none := by
  cases args with
  | nil =>
      rw [Expr.wordsAll, List.map_eq_nil_iff] at hts
      subst hts
      exact ⟨c, rest, rfl, by rw [hc]; rfl⟩
  | cons arg args =>
      rw [Expr.wordsAll, Plain.parens, List.cons_append, List.map_eq_cons_iff] at hts
      obtain ⟨v, vs, rfl, hv, -⟩ := hts
      exact ⟨v, vs ++ c :: rest, rfl, by rw [kind_of_word hv]; rfl⟩

/-- A callee and arguments, each spelled with its parentheses, are a call. -/
theorem Derives.call {callee : Expr} {args : List Expr}
    (hc : Derives table ExprAt callee.words (BinOp.ofToken? · = none)
      fun e => e.plain table = callee)
    (ha : Derives table ArgsAt (Expr.wordsAll args) (· = .rParen)
      fun es => ScriptLang.Expr.plainAll table es = args) :
    Derives table CallAt
      (sign .money :: Plain.parens (Plain.parens callee.words ++ Expr.wordsAll args))
      (fun _ => True) fun c => (ScriptLang.Expr.call c).plain table = .call callee args := by
  intro ts u rest hts _
  obtain ⟨t, _, rfl, ht, hts⟩ := List.map_eq_cons_iff.mp hts
  obtain ⟨l, _, rfl, hl, hts⟩ := List.map_eq_cons_iff.mp hts
  obtain ⟨_, tr, rfl, hca, htr⟩ := List.map_eq_append_iff.mp hts
  obtain ⟨tc, ta, rfl, htc, hta⟩ := List.map_eq_append_iff.mp hca
  obtain ⟨r, _, rfl, hword, hnil⟩ := List.map_eq_cons_iff.mp htr
  obtain rfl := List.map_eq_nil_iff.mp hnil
  have hr := kind_of_word hword
  obtain ⟨v, vs, hv, hop⟩ := wordsAll_next hta hr (u :: rest)
  obtain ⟨e, he, hcallee⟩ := hc.parens.expr tc v vs htc hop
  obtain ⟨es, hes, hargs⟩ := ha ta r (u :: rest) hta hr
  rw [← hv] at he
  refine ⟨.mk e es t.pos, ?_, by simp only [Expr.plain, hcallee, hargs]⟩
  simpa using CallAt.mk (kind_of_word ht) (kind_of_word hl) he hes hr

mutual

/-- **Expressions.**  Tokens that spell a plain expression derive one that is made plain to it. -/
theorem exprAt_words : ∀ e : Expr, e.shaped →
    Derives table ExprAt e.words (BinOp.ofToken? · = none) fun e' => e'.plain table = e
  | .literal word => fun h => .expr fun ts u rest hts _ => by
      obtain ⟨t, _, rfl, ht, hnil⟩ := List.map_eq_cons_iff.mp hts
      obtain rfl := List.map_eq_nil_iff.mp hnil
      refine ⟨.literal t, .primary (.literal ?_), by simp only [Expr.plain, ht]⟩
      rw [kind_of_word ht]
      exact h
  | .unary op operand => fun h => .expr fun ts u rest hts _ => by
      obtain ⟨t, ts', rfl, ht, hts'⟩ := List.map_eq_cons_iff.mp hts
      obtain ⟨e, he, hP⟩ := (exprAt_words operand h).parens ts' u rest hts' trivial
      exact ⟨.unary op e t.pos, .sign (by rw [kind_of_word ht]; exact op.ofToken?_kind) he,
        by simp only [Expr.plain, hP]⟩
  | .binary op lhs rhs => fun h ts u rest hts hu => by
      rw [Expr.shaped, Bool.and_eq_true] at h
      obtain ⟨tl, _, rfl, htl, hts⟩ := List.map_eq_append_iff.mp hts
      obtain ⟨t, tr, rfl, ht, htr⟩ := List.map_eq_cons_iff.mp hts
      obtain ⟨l, hl, hlP⟩ := (exprAt_words lhs h.1).parens tl t (tr ++ u :: rest) htl trivial
      obtain ⟨r, hr, hrP⟩ := (exprAt_words rhs h.2).parens tr u rest htr trivial
      have hop : BinOp.ofToken? t.kind = some op := by
        rw [kind_of_word ht]
        exact op.ofToken?_kind
      refine ⟨.binary op l r t.pos, ?_, by simp only [Expr.plain, hlP, hrP]⟩
      have htree : Tree l ([] ++ [⟨op, t.pos, r⟩]) (.binary op l r t.pos) :=
        .node (.single l) (.single r) (by simp) (by simp)
      simpa using ExprAt.mk hl (.cons hop hr (.nil hu)) htree
  | .func params body => fun h => .expr fun ts u rest hts _ => by
      rw [Expr.shaped, Bool.and_eq_true] at h
      obtain ⟨t, _, rfl, ht, hts⟩ := List.map_eq_cons_iff.mp hts
      obtain ⟨c, _, rfl, hc, hts⟩ := List.map_eq_cons_iff.mp hts
      obtain ⟨tp, _, rfl, htp, hts⟩ := List.map_eq_append_iff.mp hts
      obtain ⟨d, _, rfl, hd, hts⟩ := List.map_eq_cons_iff.mp hts
      obtain ⟨tb, _, rfl, htb, hts⟩ := List.map_eq_append_iff.mp hts
      obtain ⟨r, _, rfl, hr, hnil⟩ := List.map_eq_cons_iff.mp hts
      obtain rfl := List.map_eq_nil_iff.mp hnil
      obtain ⟨ps, hps, hpsP⟩ := derives_params h.1 tp d (tb ++ r :: u :: rest) htp trivial
      obtain ⟨b, hb, hbP⟩ := (stmtsAt_words body h.2).braces tb r (u :: rest) htb trivial
      refine ⟨.func ps b t.pos, ?_, by simp only [Expr.plain, hpsP, hbP]⟩
      simpa using UnaryAt.primary (.func (kind_of_word ht) (kind_of_word hc) hps
        (kind_of_word hd) hb (kind_of_word hr))
  | .call callee args => fun h => .expr fun ts u rest hts _ => by
      rw [Expr.shaped, Bool.and_eq_true] at h
      obtain ⟨c, hc, hP⟩ :=
        (exprAt_words callee h.1).call (argsAt_words args h.2) ts u rest hts trivial
      exact ⟨.call c, .primary (.call hc), hP⟩

/-- Arguments derive as their expressions do, with a comma behind each. -/
theorem argsAt_words : ∀ args : List Expr, Expr.shapedAll args →
    Derives table ArgsAt (Expr.wordsAll args) (· = .rParen)
      fun es => ScriptLang.Expr.plainAll table es = args
  | [] => fun _ ts u rest hts _ => by
      rw [Expr.wordsAll, List.map_eq_nil_iff] at hts
      subst hts
      exact ⟨[], .nil _, rfl⟩
  | arg :: args => fun h ts u rest hts hu => by
      rw [Expr.shapedAll, Bool.and_eq_true] at h
      have harg := (exprAt_words arg h.1).parens.expr
      obtain ⟨ta, tr, rfl, hta, htr⟩ := List.map_eq_append_iff.mp hts
      cases args with
      | nil =>
          obtain rfl := List.map_eq_nil_iff.mp htr
          obtain ⟨e, he, hP⟩ := harg ta u rest hta (by rw [hu]; rfl)
          exact ⟨[e], .last (by simpa using he), by simp only [Expr.plainAll, hP]⟩
      | cons arg' args =>
          obtain ⟨c, tr, rfl, hc, htr⟩ := List.map_eq_cons_iff.mp htr
          obtain ⟨e, he, hP⟩ :=
            harg ta c (tr ++ u :: rest) hta (by rw [kind_of_word hc]; rfl)
          obtain ⟨es, hes, hesP⟩ := argsAt_words (arg' :: args) h.2 tr u rest htr hu
          refine ⟨e :: es, .cons ?_ (kind_of_word hc) hes, by simp only [Expr.plainAll, hP, hesP]⟩
          simpa using he

/-- **Statements.**  A statement derives from its words before a semicolon. -/
theorem stmtAt_words : ∀ s : Stmt, s.shaped →
    Derives table StmtAt s.words (· = .semicolon) fun s' => s'.plain table = s
  | .assign target value => fun h ts u rest hts hu => by
      rw [Stmt.shaped, Bool.and_eq_true, beq_iff_eq] at h
      obtain ⟨t, _, rfl, ht, hts⟩ := List.map_eq_cons_iff.mp hts
      obtain ⟨is, tv, rfl, his, htv⟩ := List.map_eq_cons_iff.mp hts
      obtain ⟨e, he, hP⟩ := exprAt_words value h.2 tv u rest htv (by rw [hu]; rfl)
      exact ⟨.assign t e t.pos, .assign ((kind_of_word ht).trans h.1) (kind_of_word his) he,
        by simp only [Stmt.plain, ht, hP]⟩
  | .define name isPartial value => fun h ts u rest hts hu => by
      rw [Stmt.shaped, Bool.and_eq_true, beq_iff_eq] at h
      obtain ⟨k, _, rfl, hk, hts⟩ := List.map_eq_cons_iff.mp hts
      obtain ⟨n, _, rfl, hn, hts⟩ := List.map_eq_cons_iff.mp hts
      obtain ⟨tm, _, rfl, htm, hts⟩ := List.map_eq_append_iff.mp hts
      obtain ⟨is, tv, rfl, his, htv⟩ := List.map_eq_cons_iff.mp hts
      obtain ⟨e, he, hP⟩ := exprAt_words value h.2 tv u rest htv (by rw [hu]; rfl)
      have hname := (kind_of_word hn).trans h.1
      cases isPartial with
      | false =>
          obtain rfl := List.map_eq_nil_iff.mp htm
          exact ⟨.define n false e k.pos, .define (kind_of_word hk) hname (kind_of_word his) he,
            by simp only [Stmt.plain, hn, hP]⟩
      | true =>
          obtain ⟨c, _, rfl, hc, htm⟩ := List.map_eq_cons_iff.mp htm
          obtain ⟨w, _, rfl, hw, hnil⟩ := List.map_eq_cons_iff.mp htm
          obtain rfl := List.map_eq_nil_iff.mp hnil
          exact ⟨.define n true e k.pos, .definePartial (kind_of_word hk) hname (kind_of_word hc)
            (kind_of_word hw) (kind_of_word his) he, by simp only [Stmt.plain, hn, hP]⟩
  | .branch condition body => fun h ts u rest hts _ => by
      rw [Stmt.shaped, Bool.and_eq_true] at h
      obtain ⟨k, ts', rfl, hk, hts'⟩ := List.map_eq_cons_iff.mp hts
      obtain ⟨⟨e, b⟩, ⟨mid, he, hb⟩, hP, hbP⟩ :=
        (exprAt_words condition h.1).guarded (stmtsAt_words body h.2) ts' u rest hts' trivial
      exact ⟨.branch e b none k.pos, .branch (kind_of_word hk) he hb,
        by simp only [Stmt.plain, hP, hbP]⟩
  | .branchElse condition body elseBody => fun h ts u rest hts _ => by
      rw [Stmt.shaped, Bool.and_eq_true, Bool.and_eq_true] at h
      obtain ⟨k, _, rfl, hk, hts'⟩ := List.map_eq_cons_iff.mp hts
      -- The words up to the colon are a condition and a block.
      rw [← List.append_assoc] at hts'
      obtain ⟨tg, _, rfl, htg, htc⟩ := List.map_eq_append_iff.mp hts'
      obtain ⟨c, tb, rfl, hc, htb⟩ := List.map_eq_cons_iff.mp htc
      obtain ⟨⟨e, b⟩, ⟨mid, he, hb⟩, hP, hbP⟩ := (exprAt_words condition h.1.1).guarded
        (stmtsAt_words body h.1.2) tg c (tb ++ u :: rest) htg trivial
      obtain ⟨b', hb', hbP'⟩ := (stmtsAt_words elseBody h.2).braces tb u rest htb trivial
      refine ⟨.branch e b (some b') k.pos, ?_, by simp only [Stmt.plain, hP, hbP, hbP']⟩
      simpa using StmtAt.branchElse (kind_of_word hk) he hb (kind_of_word hc) hb'
  | .loop condition body => fun h ts u rest hts _ => by
      rw [Stmt.shaped, Bool.and_eq_true] at h
      obtain ⟨k, ts', rfl, hk, hts'⟩ := List.map_eq_cons_iff.mp hts
      obtain ⟨⟨e, b⟩, ⟨mid, he, hb⟩, hP, hbP⟩ :=
        (exprAt_words condition h.1).guarded (stmtsAt_words body h.2) ts' u rest hts' trivial
      exact ⟨.loop e b k.pos, .loop (kind_of_word hk) he hb, by simp only [Stmt.plain, hP, hbP]⟩
  | .ret => fun _ ts u rest hts hu => by
      obtain ⟨k, _, rfl, hk, hnil⟩ := List.map_eq_cons_iff.mp hts
      obtain rfl := List.map_eq_nil_iff.mp hnil
      exact ⟨.ret none k.pos, .ret (kind_of_word hk) (by rw [hu]; rfl), by simp only [Stmt.plain]⟩
  | .retValue value => fun h ts u rest hts hu => by
      obtain ⟨k, tv, rfl, hk, htv⟩ := List.map_eq_cons_iff.mp hts
      obtain ⟨e, he, hP⟩ := exprAt_words value h tv u rest htv (by rw [hu]; rfl)
      -- The greedy rule asks what the value begins with.
      obtain ⟨t, ts', hts', ht⟩ := he.startsExpr
      rw [hts'] at he
      refine ⟨.ret (some e) k.pos, ?_, by simp only [Stmt.plain, hP]⟩
      rw [List.cons_append, hts']
      exact .retValue (kind_of_word hk) ht he
  | .call callee args => fun h ts u rest hts _ => by
      rw [Stmt.shaped, Bool.and_eq_true] at h
      obtain ⟨⟨e, es, pos⟩, hc, hP⟩ :=
        (exprAt_words callee h.1).call (argsAt_words args h.2) ts u rest hts trivial
      simp only [Expr.plain, Expr.call.injEq] at hP
      exact ⟨.call (.mk e es pos), .call hc, by simp only [Stmt.plain, hP]⟩
  | .block body => fun h ts u rest hts _ => by
      obtain ⟨b, hb, hP⟩ := (stmtsAt_words body h).braces ts u rest hts trivial
      exact ⟨.block b, .block hb, by simp only [Stmt.plain, hP]⟩

/-- Statements derive from their words, each with a semicolon behind it. -/
theorem stmtsAt_words : ∀ body : List Stmt, Stmt.shapedAll body →
    Derives table StmtsAt (Stmt.wordsAll body) (fun _ => True)
      fun body' => ScriptLang.Stmt.plainAll table body' = body
  | [] => fun _ ts u rest hts _ => by
      rw [Stmt.wordsAll, List.map_eq_nil_iff] at hts
      subst hts
      exact ⟨[], .nil _, rfl⟩
  | s :: body => fun h ts u rest hts _ => by
      rw [Stmt.shapedAll, Bool.and_eq_true] at h
      obtain ⟨ts, _, rfl, hwords, htb⟩ := List.map_eq_append_iff.mp hts
      obtain ⟨c, tb, rfl, hc, htb⟩ := List.map_eq_cons_iff.mp htb
      obtain ⟨s', hs, hP⟩ := stmtAt_words s h.1 ts c (tb ++ u :: rest) hwords (kind_of_word hc)
      obtain ⟨body', hb, hbP⟩ := stmtsAt_words body h.2 tb u rest htb trivial
      refine ⟨s' :: body', ?_, by simp only [Stmt.plainAll, hP, hbP]⟩
      simpa using StmtsAt.cons hs (.semicolon (kind_of_word hc) hb)

end

end Derivations

/-- **Round trip.**  A printed program is read back, if all of its words fit into the buffer and
texts are compared. -/
theorem parse_print {limit : Nat} {prog : List Stmt} (hprog : wellFormed limit prog)
    (hkeys : (Stmt.wordsAll prog).all (·.keywordFits limit)) :
    ∃ prog' table, Program.parse (print prog) { bufferLength := limit, policy := .verified } =
      .ok (prog', table) ∧ prog'.plain table = prog := by
  rw [wellFormed, Bool.and_eq_true, List.all_eq_true] at hprog
  rw [List.all_eq_true] at hkeys
  obtain ⟨ts, l, hts, hwords⟩ :=
    Lexer.tokenize_render fun w hw => ⟨hprog.2 w hw, hkeys w hw⟩
  obtain ⟨ts', _, rfl, hts', hlast⟩ := List.map_eq_append_iff.mp hwords
  obtain ⟨u, _, rfl, hu, hnil⟩ := List.map_eq_cons_iff.mp hlast
  obtain rfl := List.map_eq_nil_iff.mp hnil
  obtain ⟨body, hbody, hplain⟩ := stmtsAt_words prog hprog.1 ts' u [] hts' trivial
  refine ⟨{ stmts := body }, l.table, ?_, hplain⟩
  exact Program.parse_of_programAt hts (Grammar.programAt_iff.mpr ⟨u, kind_of_word hu, hbody⟩)

/-- The program that gives `x` the value `-1` is read back from its source. -/
theorem parse_print_negation :
    let prog : List Stmt :=
      [.assign ⟨.identifier, some [120]⟩ (.unary .neg (.literal ⟨.number, some [49]⟩))]
    print prog = Text.ofString "x := - ( 1 ) ;" ∧
      ∃ prog' table, Program.parse (print prog) { bufferLength := 1, policy := .verified } =
        .ok (prog', table) ∧ prog'.plain table = prog :=
  ⟨by decide, parse_print (by decide) (by decide)⟩

/-- Well-formed texts alone are not enough: the letters of a keyword have to fit as well.  A buffer
of three bytes is too short for `return`. -/
theorem not_parse_print_of_wellFormed : ¬ ∀ (limit : Nat) (prog : List Stmt),
    wellFormed limit prog → ∃ prog' table,
      Program.parse (print prog) { bufferLength := limit, policy := .verified } =
        .ok (prog', table) ∧ prog'.plain table = prog := by
  intro h
  obtain ⟨prog', table, hparse, -⟩ := h 3 [.ret] (by decide)
  have herror : Program.parse (print [.ret]) { bufferLength := 3, policy := .verified } =
      .error (.lex (.tooLong ⟨1, 4⟩)) := by rfl
  rw [herror] at hparse
  cases hparse

end Plain

end ScriptLang
