import Mathlib.Logic.Basic
import ScriptLang.Syntax.Tree

/-!
# The tokens of a tree

Names and literals are tokens at the leaves of a tree.  `mapTokens` changes them and leaves the
shape and the spans alone, and `tokens` lists them.

`Alike R a b` compares two pieces of syntax that differ in their tokens only, where `R` says which
tokens may stand for each other.  It is said by what can be observed: maps of tokens that do not
tell related tokens apart make `a` and `b` the same.  So it passes through everything that is built
out of tokens (`Alike.assign` and its like), and what `R` allows is read off by choosing the maps.

* `Alike.eq`: what is alike over equal tokens is equal.
* `Program.mem_of_alike`: what holds of the related tokens holds of every token of a program.
-/

namespace ScriptLang

/-! ### Changing tokens -/

mutual

/-- An expression with its tokens changed. -/
def Expr.mapTokens (g : Token → Token) : Expr → Expr
  | .literal t => .literal (g t)
  | .unary op operand span => .unary op (operand.mapTokens g) span
  | .binary op lhs rhs span => .binary op (lhs.mapTokens g) (rhs.mapTokens g) span
  | .func params body span => .func (params.map g) (body.mapTokens g) span
  | .call c => .call (c.mapTokens g)

def Call.mapTokens (g : Token → Token) : Call → Call
  | .mk callee args span => .mk (callee.mapTokens g) (Expr.mapTokensAll g args) span

def Expr.mapTokensAll (g : Token → Token) : List Expr → List Expr
  | [] => []
  | e :: es => e.mapTokens g :: Expr.mapTokensAll g es

/-- A statement with its tokens changed. -/
def Stmt.mapTokens (g : Token → Token) : Stmt → Stmt
  | .assign target value span => .assign (g target) (value.mapTokens g) span
  | .define name isPartial value span => .define (g name) isPartial (value.mapTokens g) span
  | .branch condition body none span =>
    .branch (condition.mapTokens g) (body.mapTokens g) none span
  | .branch condition body (some elseBody) span =>
    .branch (condition.mapTokens g) (body.mapTokens g) (some (elseBody.mapTokens g)) span
  | .loop condition body span => .loop (condition.mapTokens g) (body.mapTokens g) span
  | .ret none span => .ret none span
  | .ret (some value) span => .ret (some (value.mapTokens g)) span
  | .call c => .call (c.mapTokens g)
  | .block b => .block (b.mapTokens g)

def Stmt.mapTokensAll (g : Token → Token) : List Stmt → List Stmt
  | [] => []
  | s :: body => s.mapTokens g :: Stmt.mapTokensAll g body

def Block.mapTokens (g : Token → Token) : Block → Block
  | .mk body span => .mk (Stmt.mapTokensAll g body) span

end

/-- A program with its tokens changed. -/
def Program.mapTokens (g : Token → Token) (prog : Program) : Program :=
  { stmts := Stmt.mapTokensAll g prog.stmts }

mutual

theorem Expr.mapTokens_id : ∀ e : Expr, e.mapTokens id = e
  | .literal _ => rfl
  | .unary _ operand _ => by simp only [Expr.mapTokens, Expr.mapTokens_id operand]
  | .binary _ lhs rhs _ => by
      simp only [Expr.mapTokens, Expr.mapTokens_id lhs, Expr.mapTokens_id rhs]
  | .func _ body _ => by simp only [Expr.mapTokens, List.map_id, Block.mapTokens_id body]
  | .call c => by simp only [Expr.mapTokens, Call.mapTokens_id c]

theorem Call.mapTokens_id : ∀ c : Call, c.mapTokens id = c
  | .mk callee args _ => by
      simp only [Call.mapTokens, Expr.mapTokens_id callee, Expr.mapTokensAll_id args]

theorem Expr.mapTokensAll_id : ∀ es : List Expr, Expr.mapTokensAll id es = es
  | [] => rfl
  | e :: es => by simp only [Expr.mapTokensAll, Expr.mapTokens_id e, Expr.mapTokensAll_id es]

theorem Stmt.mapTokens_id : ∀ s : Stmt, s.mapTokens id = s
  | .assign _ value _ | .define _ _ value _ => by
      simp only [Stmt.mapTokens, id, Expr.mapTokens_id value]
  | .branch condition body none _ | .loop condition body _ => by
      simp only [Stmt.mapTokens, Expr.mapTokens_id condition, Block.mapTokens_id body]
  | .branch condition body (some elseBody) _ => by
      simp only [Stmt.mapTokens, Expr.mapTokens_id condition, Block.mapTokens_id body,
        Block.mapTokens_id elseBody]
  | .ret none _ => rfl
  | .ret (some value) _ => by simp only [Stmt.mapTokens, Expr.mapTokens_id value]
  | .call c => by simp only [Stmt.mapTokens, Call.mapTokens_id c]
  | .block b => by simp only [Stmt.mapTokens, Block.mapTokens_id b]

theorem Stmt.mapTokensAll_id : ∀ body : List Stmt, Stmt.mapTokensAll id body = body
  | [] => rfl
  | s :: body => by
      simp only [Stmt.mapTokensAll, Stmt.mapTokens_id s, Stmt.mapTokensAll_id body]

theorem Block.mapTokens_id : ∀ b : Block, b.mapTokens id = b
  | .mk body _ => by simp only [Block.mapTokens, Stmt.mapTokensAll_id body]

end

theorem Program.mapTokens_id (prog : Program) : prog.mapTokens id = prog := by
  simp only [Program.mapTokens, Stmt.mapTokensAll_id]

/-! ### Listing tokens -/

mutual

/-- The tokens of an expression. -/
def Expr.tokens : Expr → List Token
  | .literal t => [t]
  | .unary _ operand _ => operand.tokens
  | .binary _ lhs rhs _ => lhs.tokens ++ rhs.tokens
  | .func params body _ => params ++ body.tokens
  | .call c => c.tokens

def Call.tokens : Call → List Token
  | .mk callee args _ => callee.tokens ++ Expr.tokensAll args

def Expr.tokensAll : List Expr → List Token
  | [] => []
  | e :: es => e.tokens ++ Expr.tokensAll es

/-- The tokens of a statement. -/
def Stmt.tokens : Stmt → List Token
  | .assign target value _ => target :: value.tokens
  | .define name _ value _ => name :: value.tokens
  | .branch condition body none _ => condition.tokens ++ body.tokens
  | .branch condition body (some elseBody) _ =>
    condition.tokens ++ body.tokens ++ elseBody.tokens
  | .loop condition body _ => condition.tokens ++ body.tokens
  | .ret none _ => []
  | .ret (some value) _ => value.tokens
  | .call c => c.tokens
  | .block b => b.tokens

def Stmt.tokensAll : List Stmt → List Token
  | [] => []
  | s :: body => s.tokens ++ Stmt.tokensAll body

def Block.tokens : Block → List Token
  | .mk body _ => Stmt.tokensAll body

end

/-- The tokens of a program, in the order of the source. -/
def Program.tokens (prog : Program) : List Token := Stmt.tokensAll prog.stmts

mutual

/-- The tokens of a changed tree are the tokens of the tree, changed. -/
theorem Expr.tokens_mapTokens (g : Token → Token) :
    ∀ e : Expr, (e.mapTokens g).tokens = e.tokens.map g
  | .literal _ => rfl
  | .unary _ operand _ => by
      simp only [Expr.mapTokens, Expr.tokens, Expr.tokens_mapTokens g operand]
  | .binary _ lhs rhs _ => by
      simp only [Expr.mapTokens, Expr.tokens, Expr.tokens_mapTokens g lhs,
        Expr.tokens_mapTokens g rhs, List.map_append]
  | .func _ body _ => by
      simp only [Expr.mapTokens, Expr.tokens, Block.tokens_mapTokens g body, List.map_append]
  | .call c => by simp only [Expr.mapTokens, Expr.tokens, Call.tokens_mapTokens g c]

theorem Call.tokens_mapTokens (g : Token → Token) :
    ∀ c : Call, (c.mapTokens g).tokens = c.tokens.map g
  | .mk callee args _ => by
      simp only [Call.mapTokens, Call.tokens, Expr.tokens_mapTokens g callee,
        Expr.tokensAll_mapTokensAll g args, List.map_append]

theorem Expr.tokensAll_mapTokensAll (g : Token → Token) :
    ∀ es : List Expr, Expr.tokensAll (Expr.mapTokensAll g es) = (Expr.tokensAll es).map g
  | [] => rfl
  | e :: es => by
      simp only [Expr.mapTokensAll, Expr.tokensAll, Expr.tokens_mapTokens g e,
        Expr.tokensAll_mapTokensAll g es, List.map_append]

theorem Stmt.tokens_mapTokens (g : Token → Token) :
    ∀ s : Stmt, (s.mapTokens g).tokens = s.tokens.map g
  | .assign _ value _ | .define _ _ value _ => by
      simp only [Stmt.mapTokens, Stmt.tokens, Expr.tokens_mapTokens g value, List.map_cons]
  | .branch condition body none _ | .loop condition body _ => by
      simp only [Stmt.mapTokens, Stmt.tokens, Expr.tokens_mapTokens g condition,
        Block.tokens_mapTokens g body, List.map_append]
  | .branch condition body (some elseBody) _ => by
      simp only [Stmt.mapTokens, Stmt.tokens, Expr.tokens_mapTokens g condition,
        Block.tokens_mapTokens g body, Block.tokens_mapTokens g elseBody, List.map_append]
  | .ret none _ => rfl
  | .ret (some value) _ => by
      simp only [Stmt.mapTokens, Stmt.tokens, Expr.tokens_mapTokens g value]
  | .call c => by simp only [Stmt.mapTokens, Stmt.tokens, Call.tokens_mapTokens g c]
  | .block b => by simp only [Stmt.mapTokens, Stmt.tokens, Block.tokens_mapTokens g b]

theorem Stmt.tokensAll_mapTokensAll (g : Token → Token) :
    ∀ body : List Stmt, Stmt.tokensAll (Stmt.mapTokensAll g body) = (Stmt.tokensAll body).map g
  | [] => rfl
  | s :: body => by
      simp only [Stmt.mapTokensAll, Stmt.tokensAll, Stmt.tokens_mapTokens g s,
        Stmt.tokensAll_mapTokensAll g body, List.map_append]

theorem Block.tokens_mapTokens (g : Token → Token) :
    ∀ b : Block, (b.mapTokens g).tokens = b.tokens.map g
  | .mk body _ => by
      simp only [Block.mapTokens, Block.tokens, Stmt.tokensAll_mapTokensAll g body]

end

theorem Program.tokens_mapTokens (g : Token → Token) (prog : Program) :
    (prog.mapTokens g).tokens = prog.tokens.map g :=
  Stmt.tokensAll_mapTokensAll g prog.stmts

/-! ### Alike but for tokens -/

/-- Data with tokens in it that can be changed. -/
class HasTokens (α : Type) where
  mapTokens : (Token → Token) → α → α

instance : HasTokens Token := ⟨fun g t => g t⟩
instance : HasTokens Bool := ⟨fun _ b => b⟩
instance : HasTokens Unit := ⟨fun _ u => u⟩
instance : HasTokens Expr := ⟨Expr.mapTokens⟩
instance : HasTokens Call := ⟨Call.mapTokens⟩
instance : HasTokens Stmt := ⟨Stmt.mapTokens⟩
instance : HasTokens Block := ⟨Block.mapTokens⟩
instance : HasTokens Program := ⟨Program.mapTokens⟩
instance {α : Type} [HasTokens α] : HasTokens (List α) :=
  ⟨fun g => List.map (HasTokens.mapTokens g)⟩
instance {α : Type} [HasTokens α] : HasTokens (Option α) :=
  ⟨fun g => Option.map (HasTokens.mapTokens g)⟩

/-- No maps that agree on related tokens tell `a` from `b`. -/
def Alike {α : Type} [HasTokens α] (R : Token → Token → Prop) (a b : α) : Prop :=
  ∀ g h : Token → Token, (∀ t u, R t u → g t = h u) →
    HasTokens.mapTokens g a = HasTokens.mapTokens h b

theorem Expr.mapTokensAll_eq (g : Token → Token) (es : List Expr) :
    Expr.mapTokensAll g es = HasTokens.mapTokens g es := by
  induction es with
  | nil => rfl
  | cons e es ih =>
      rw [Expr.mapTokensAll, ih]
      rfl

theorem Stmt.mapTokensAll_eq (g : Token → Token) (body : List Stmt) :
    Stmt.mapTokensAll g body = HasTokens.mapTokens g body := by
  induction body with
  | nil => rfl
  | cons s body ih =>
      rw [Stmt.mapTokensAll, ih]
      rfl

namespace Alike

variable {α : Type} [HasTokens α] {R R' : Token → Token → Prop}

theorem mono {a b : α} (h : Alike R a b) (hR : ∀ t u, R t u → R' t u) : Alike R' a b :=
  fun g g' hg => h g g' fun t u ht => hg t u (hR t u ht)

theorem of_rel {t u : Token} (h : R t u) : Alike R t u := fun _ _ hg => hg t u h

/-- A map that agrees with itself on related tokens does not tell `a` from `b`. -/
theorem map_eq {a b : α} (h : Alike R a b) {g : Token → Token} (hg : ∀ t u, R t u → g t = g u) :
    HasTokens.mapTokens g a = HasTokens.mapTokens g b :=
  h g g hg

/-- What is alike over equal tokens is equal. -/
protected theorem eq {a b : α} (h : Alike R a b) (hR : ∀ t u, R t u → t = u)
    (hid : ∀ a : α, HasTokens.mapTokens id a = a) : a = b := by
  rw [← hid a, ← hid b]
  exact h.map_eq hR

/-- Positions are observed by a map that forgets the rest of a token. -/
theorem pos_eq {t u : Token} (h : Alike R t u) (hR : ∀ t u, R t u → t.pos = u.pos) :
    t.pos = u.pos := by
  have heq : (⟨.eof, none, t.pos⟩ : Token) = ⟨.eof, none, u.pos⟩ :=
    h (fun t => ⟨.eof, none, t.pos⟩) (fun t => ⟨.eof, none, t.pos⟩) fun t u ht => by
      rw [hR t u ht]
  exact (Token.mk.inj heq).2.2

/-- Data without tokens is alike only if it is equal. -/
theorem bool_eq {a b : Bool} (h : Alike R a b) : a = b :=
  h (fun _ => default) (fun _ => default) fun _ _ _ => rfl

protected theorem bool (R : Token → Token → Prop) (b : Bool) : Alike R b b := fun _ _ _ => rfl

protected theorem unit (R : Token → Token → Prop) : Alike R () () := fun _ _ _ => rfl

protected theorem none (R : Token → Token → Prop) : Alike R (none : Option α) none :=
  fun _ _ _ => rfl

protected theorem some {a b : α} (h : Alike R a b) : Alike R (some a) (some b) :=
  fun g g' hg => congrArg some (h g g' hg)

protected theorem nil (R : Token → Token → Prop) : Alike R ([] : List α) [] := fun _ _ _ => rfl

protected theorem cons {a b : α} {as bs : List α} (h : Alike R a b) (hs : Alike R as bs) :
    Alike R (a :: as) (b :: bs) :=
  fun g g' hg => congrArg₂ List.cons (h g g' hg) (hs g g' hg)

/-! #### Expressions -/

variable {e e' callee callee' value value' condition condition' : Expr}
  {args args' : List Expr} {params params' : List Token} {c c' : Call} {b b' : Block}
  {body body' : List Stmt} {t t' : Token}

protected theorem literal (h : Alike R t t') : Alike R (Expr.literal t) (.literal t') :=
  fun g g' hg => congrArg Expr.literal (h g g' hg)

protected theorem unary (op : UnaryOp) (h : Alike R e e') (span : Position) :
    Alike R (Expr.unary op e span) (.unary op e' span) :=
  fun g g' hg => congrArg (Expr.unary op · span) (h g g' hg)

protected theorem func (hp : Alike R params params') (hb : Alike R b b') (span : Position) :
    Alike R (Expr.func params b span) (.func params' b' span) :=
  fun g g' hg => congrArg₂ (Expr.func · · span) (hp g g' hg) (hb g g' hg)

protected theorem exprCall (h : Alike R c c') : Alike R (Expr.call c) (.call c') :=
  fun g g' hg => congrArg Expr.call (h g g' hg)

protected theorem call (hc : Alike R callee callee') (ha : Alike R args args') (span : Position) :
    Alike R (Call.mk callee args span) (.mk callee' args' span) := fun g g' hg => by
  have hargs := ha g g' hg
  rw [← Expr.mapTokensAll_eq, ← Expr.mapTokensAll_eq] at hargs
  exact congrArg₂ (Call.mk · · span) (hc g g' hg) hargs

/-! #### Statements -/

protected theorem assign (ht : Alike R t t') (hv : Alike R value value') (span : Position) :
    Alike R (Stmt.assign t value span) (.assign t' value' span) :=
  fun g g' hg => congrArg₂ (Stmt.assign · · span) (ht g g' hg) (hv g g' hg)

protected theorem define (ht : Alike R t t') (isPartial : Bool) (hv : Alike R value value')
    (span : Position) :
    Alike R (Stmt.define t isPartial value span) (.define t' isPartial value' span) :=
  fun g g' hg => congrArg₂ (Stmt.define · isPartial · span) (ht g g' hg) (hv g g' hg)

protected theorem branch (hc : Alike R condition condition') (hb : Alike R b b')
    {d d' : Option Block} (hd : Alike R d d') (span : Position) :
    Alike R (Stmt.branch condition b d span) (.branch condition' b' d' span) := fun g g' hg => by
  have hmap : ∀ (g : Token → Token) (condition : Expr) (b : Block) (d : Option Block),
      (Stmt.branch condition b d span).mapTokens g =
        .branch (condition.mapTokens g) (b.mapTokens g) (d.map (Block.mapTokens g)) span := by
    intro g condition b d
    cases d <;> rfl
  have hd' : d.map (Block.mapTokens g) = d'.map (Block.mapTokens g') := hd g g' hg
  have hb' : b.mapTokens g = b'.mapTokens g' := hb g g' hg
  have hc' : condition.mapTokens g = condition'.mapTokens g' := hc g g' hg
  change (Stmt.branch condition b d span).mapTokens g =
    (Stmt.branch condition' b' d' span).mapTokens g'
  rw [hmap, hmap, hc', hb', hd']

protected theorem loop (hc : Alike R condition condition') (hb : Alike R b b') (span : Position) :
    Alike R (Stmt.loop condition b span) (.loop condition' b' span) :=
  fun g g' hg => congrArg₂ (Stmt.loop · · span) (hc g g' hg) (hb g g' hg)

protected theorem ret {v v' : Option Expr} (hv : Alike R v v') (span : Position) :
    Alike R (Stmt.ret v span) (.ret v' span) := fun g g' hg => by
  have hmap : ∀ (g : Token → Token) (v : Option Expr),
      (Stmt.ret v span).mapTokens g = .ret (v.map (Expr.mapTokens g)) span := by
    intro g v
    cases v <;> rfl
  have hv' : v.map (Expr.mapTokens g) = v'.map (Expr.mapTokens g') := hv g g' hg
  change (Stmt.ret v span).mapTokens g = (Stmt.ret v' span).mapTokens g'
  rw [hmap, hmap, hv']

protected theorem stmtCall (h : Alike R c c') : Alike R (Stmt.call c) (.call c') :=
  fun g g' hg => congrArg Stmt.call (h g g' hg)

protected theorem stmtBlock (h : Alike R b b') : Alike R (Stmt.block b) (.block b') :=
  fun g g' hg => congrArg Stmt.block (h g g' hg)

protected theorem block (h : Alike R body body') (span : Position) :
    Alike R (Block.mk body span) (.mk body' span) := fun g g' hg => by
  have hbody := h g g' hg
  rw [← Stmt.mapTokensAll_eq, ← Stmt.mapTokensAll_eq] at hbody
  exact congrArg (Block.mk · span) hbody

protected theorem program (h : Alike R body body') :
    Alike R ({ stmts := body } : Program) { stmts := body' } := fun g g' hg => by
  have hbody := h g g' hg
  rw [← Stmt.mapTokensAll_eq, ← Stmt.mapTokensAll_eq] at hbody
  exact congrArg Program.mk hbody

end Alike

/-! ### What is read off -/

/-- What holds of the related tokens holds of every token that is listed, if changing the tokens
changes the list alike. -/
theorem Alike.forall_mem {α : Type} [HasTokens α] {R : Token → Token → Prop} {P : Token → Prop}
    {a : α} {tokens : α → List Token}
    (htokens : ∀ g a, tokens (HasTokens.mapTokens g a) = (tokens a).map g) (h : Alike R a a)
    (hR : ∀ t u, R t u → t = u ∧ P t) : ∀ t ∈ tokens a, P t := by
  classical
  -- A map that moves just the tokens outside of `P` would be noticed.
  let move (t : Token) : Token := { t with pos := ⟨t.pos.row + 1, t.pos.col⟩ }
  have hmap : HasTokens.mapTokens (fun t => if P t then t else move t) a =
      HasTokens.mapTokens id a :=
    h _ _ fun t u ht => by
      obtain ⟨rfl, hP⟩ := hR t u ht
      exact if_pos hP
  have hlist := congrArg tokens hmap
  rw [htokens, htokens, List.map_inj_left] at hlist
  intro t ht
  by_cases hP : P t
  · exact hP
  · have hrow := congrArg (fun t : Token => t.pos.row) (hlist t ht)
    simp [hP, move] at hrow

/-- What holds of the related tokens holds of every token of a program. -/
theorem Program.mem_of_alike {R : Token → Token → Prop} {P : Token → Prop} {p : Program}
    (h : Alike R p p) (hR : ∀ t u, R t u → t = u ∧ P t) : ∀ t ∈ p.tokens, P t :=
  h.forall_mem Program.tokens_mapTokens hR

end ScriptLang
