import ScriptLang.Proofs.Parser.Layers
import ScriptLang.Proofs.Syntax.Tokens

/-!
# Two runs of the parser

The parser looks at tokens through their kinds and positions only, pulls them one by one and rejects
at the token it looks at.  So two runs of it stay together as long as their lexers do.  A
`Simulation` says what it means for two runs to be together: which states may meet, which tokens may
stand for each other and which failures.  What is known of two runs may grow while they go on, and a
world is what is known so far.

`Sound` lists what has to be shown of a simulation: that it survives the pulling and the dropping of
a token, and that it allows the rejections at a token.  From that, every parser of the grammar keeps
two runs together (`Kept`), which is one lemma `kept_…` for each construct.

* `kept_within`: expressions and blocks.
* **Two runs** (`Sound.parseProgram`).  Both runs end with programs that are alike but for their
  tokens, or both with an error that the simulation allows.
-/

namespace ScriptLang.Parser

/-- How two runs of the parser may be together, in the worlds `W`. -/
structure Simulation (W : Type) where
  later : W → W → Prop
  state : W → Parser → Parser → Prop
  token : W → Token → Token → Prop
  /-- The errors that two runs may fail with, and the states they leave. -/
  failed : W → ParseError × Parser → ParseError × Parser → Prop

/-! ### Waiting operands -/

instance : HasTokens Waiting := ⟨fun g w => { w with lhs := w.lhs.mapTokens g }⟩

/-- Closing operands looks at their operators and not at their tokens. -/
theorem closeAbove_mapTokens (g : Token → Token) (op : BinOp) (ws : List Waiting) (rhs : Expr) :
    closeAbove op (HasTokens.mapTokens g ws) (HasTokens.mapTokens g rhs) =
      (HasTokens.mapTokens g (closeAbove op ws rhs).1,
        HasTokens.mapTokens g (closeAbove op ws rhs).2) := by
  induction ws generalizing rhs with
  | nil => rfl
  | cons w ws ih =>
      change (if op.priority ≤ w.op.priority then _ else _) = _
      rw [closeAbove]
      split
      · exact ih (w.close rhs)
      · rfl

theorem closeAll_mapTokens (g : Token → Token) (ws : List Waiting) (rhs : Expr) :
    closeAll (HasTokens.mapTokens g ws) (HasTokens.mapTokens g rhs) =
      HasTokens.mapTokens g (closeAll ws rhs) := by
  induction ws generalizing rhs with
  | nil => rfl
  | cons w ws ih => exact ih (w.close rhs)

section Alike

variable {T : Token → Token → Prop} {ws vs : List Waiting} {e f : Expr}

/-- So stacks that are alike stay alike when operands are closed. -/
theorem alike_closeAbove (op : BinOp) (hw : Alike T ws vs) (he : Alike T e f) :
    Alike T (closeAbove op ws e).1 (closeAbove op vs f).1 ∧
      Alike T (closeAbove op ws e).2 (closeAbove op vs f).2 := by
  have h : ∀ g h : Token → Token, (∀ t u, T t u → g t = h u) → _ := fun g h hg =>
    (closeAbove_mapTokens g op ws e).symm.trans <| by
      rw [hw g h hg, he g h hg, closeAbove_mapTokens]
  exact ⟨fun g g' hg => (Prod.mk.inj (h g g' hg)).1, fun g g' hg => (Prod.mk.inj (h g g' hg)).2⟩

theorem alike_closeAll (hw : Alike T ws vs) (he : Alike T e f) :
    Alike T (closeAll ws e) (closeAll vs f) := fun g h hg => by
  rw [← closeAll_mapTokens, hw g h hg, he g h hg, closeAll_mapTokens]

theorem alike_waiting (op : BinOp) (he : Alike T e f) (span : Position) :
    Alike T ({ lhs := e, op := op, span := span } : Waiting) { lhs := f, op := op, span := span } :=
  fun g h hg => congrArg (Waiting.mk · op span) (he g h hg)

end Alike

/-! ### Runs that stay together -/

namespace Simulation

variable {W : Type} {α β : Type} [HasTokens α] [HasTokens β] {R : Simulation W} {w w' : W}
  {p q : Parser} {t u : Token}

/-- Two runs from the world `w` end together. -/
inductive Ends (R : Simulation W) (w : W) :
    Except Failure α × Parser → Except Failure α × Parser → Prop where
  | answer {w' : W} {a b : α} {p q : Parser} (hw : R.later w w') (hs : R.state w' p q)
      (ha : Alike (R.token w') a b) : R.Ends w (.ok a, p) (.ok b, q)
  | failure {w' : W} {e f : ParseError} {p q : Parser} (hw : R.later w w')
      (hf : R.failed w' (e, p) (f, q)) : R.Ends w (.error (.error e), p) (.error (.error f), q)
  | exhausted (p q : Parser) : R.Ends w (.error .exhausted, p) (.error .exhausted, q)

/-- Two runs, of `x` from `p` and of `y` from `q`, end together. -/
def EndsFrom (R : Simulation W) (w : W) (p q : Parser) (x y : Parse α) : Prop :=
  R.Ends w (x p) (y q)

/-- From every world after `w`, `x` and `y` keep two runs together. -/
def Follows (R : Simulation W) (w : W) (x y : Parse α) : Prop :=
  ∀ w' p q, R.later w w' → R.state w' p q → R.EndsFrom w' p q x y

/-- `x` keeps two runs together. -/
def Kept (R : Simulation W) (x : Parse α) : Prop := ∀ w, R.Follows w x x

/-- What makes a simulation one of the whole parser. -/
structure Sound (R : Simulation W) : Prop where
  refl : ∀ w, R.later w w
  trans : ∀ {w₁ w₂ w₃}, R.later w₁ w₂ → R.later w₂ w₃ → R.later w₁ w₃
  mono : ∀ {w w' t u}, R.later w w' → R.token w t u → R.token w' t u
  kind : ∀ {w t u}, R.token w t u → t.kind = u.kind
  pos : ∀ {w t u}, R.token w t u → t.pos = u.pos
  remaining : ∀ {w p q}, R.state w p q → p.remaining = q.remaining
  lookahead : ∀ {w p q}, R.state w p q → p.lookahead = none ∧ q.lookahead = none ∨
    ∃ t u, p.lookahead = some t ∧ q.lookahead = some u ∧ R.token w t u
  pull : ∀ {w p q}, R.state w p q → p.lookahead = none → q.lookahead = none →
    R.Ends w (pull p) (pull q)
  drop : ∀ {w p q t u}, R.state w p q → p.lookahead = some t → q.lookahead = some u →
    t.kind ≠ .eof → R.state w { p with lookahead := none } { q with lookahead := none }
  expected : ∀ {w p q t u} (x : Expectation), R.state w p q → p.lookahead = some t →
    q.lookahead = some u → R.token w t u →
    R.failed w (.expected x t.kind t.pos, p) (.expected x t.kind t.pos, q)
  unrecognised : ∀ {w p q t u}, R.state w p q → p.lookahead = some t → q.lookahead = some u →
    R.token w t u → R.failed w (.unrecognised t.pos, p) (.unrecognised t.pos, q)

/-! ### One parser after another -/

/-- A choice by what both runs say alike. -/
theorem Follows.ite {a b : Bool} {x y x' y' : Parse α} (h : Alike (R.token w) a b)
    (hx : R.Follows w x x') (hy : R.Follows w y y') :
    R.Follows w (if a then x else y) (if b then x' else y') := by
  obtain rfl := h.bool_eq
  cases a
  · exact hy
  · exact hx

section Sound

variable (hR : R.Sound)
include hR

theorem Sound.later {a b : α} (h : Alike (R.token w) a b) (hw : R.later w w') :
    Alike (R.token w') a b :=
  h.mono fun _ _ ht => hR.mono hw ht

theorem Sound.pos_eq (h : Alike (R.token w) t u) : t.pos = u.pos :=
  h.pos_eq fun _ _ ht => hR.pos ht

/-- What ends together from a later world does so from an earlier one. -/
theorem Sound.earlier {r s : Except Failure α × Parser} (hw : R.later w w') (h : R.Ends w' r s) :
    R.Ends w r s := by
  cases h with
  | answer hw' hs ha => exact .answer (hR.trans hw hw') hs ha
  | failure hw' hf => exact .failure (hR.trans hw hw') hf
  | exhausted p q => exact .exhausted p q

theorem Sound.ends {x y : Parse α} (h : R.Follows w x y) (hs : R.state w p q) :
    R.EndsFrom w p q x y :=
  h w p q (hR.refl w) hs

/-- **Sequencing.**  Two runs that end together go on together if what comes next does so in every
later world. -/
theorem Sound.bind {x y : Parse α} {f g : α → Parse β} (h : R.EndsFrom w p q x y)
    (hf : ∀ w' a b, R.later w w' → Alike (R.token w') a b → R.Follows w' (f a) (g b)) :
    R.EndsFrom w p q (x >>= f) (y >>= g) := by
  unfold EndsFrom at *
  rw [Attempt.bind_apply, Attempt.bind_apply]
  generalize x p = r at h
  generalize y q = s at h
  cases h with
  | answer hw hs ha => exact hR.earlier hw (hR.ends (hf _ _ _ hw ha) hs)
  | failure hw hf => exact .failure hw hf
  | exhausted p q => exact .exhausted p q

theorem Sound.follows {x y : Parse α} {f g : α → Parse β} (h : R.Follows w x y)
    (hf : ∀ w' a b, R.later w w' → Alike (R.token w') a b → R.Follows w' (f a) (g b)) :
    R.Follows w (x >>= f) (y >>= g) := fun w₁ p q hw hs =>
  hR.bind (h w₁ p q hw hs) fun w₂ a b hw' ha => hf w₂ a b (hR.trans hw hw') ha

theorem Sound.pure {a b : α} (h : Alike (R.token w) a b) :
    R.Follows w (Pure.pure a : Parse α) (Pure.pure b) := fun w' _ _ hw hs =>
  .answer (hR.refl w') hs (hR.later h hw)

/-- Two runs have as much unread, so they repeat as often. -/
theorem Sound.bounded {x y : Nat → Parse α} (h : ∀ n, R.Follows w (x n) (y n)) :
    R.Follows w (Parser.bounded x) (Parser.bounded y) := fun w' p q hw hs => by
  have hn := h (p.remaining + 1) w' p q hw hs
  change R.Ends w' (x (p.remaining + 1) p) (y (q.remaining + 1) q)
  rw [← hR.remaining hs]
  exact hn

/-! ### Tokens -/

/-- After a look at the next token both runs have one ahead. -/
theorem Sound.peek_bind {f g : Token → Parse α}
    (hf : ∀ w' p q t u, R.later w w' → R.state w' p q → p.lookahead = some t →
      q.lookahead = some u → R.token w' t u → R.EndsFrom w' p q (f t) (g u)) :
    R.Follows w (peek >>= f) (peek >>= g) := by
  intro w₁ p q hw hs
  unfold EndsFrom
  rw [Attempt.bind_apply, Attempt.bind_apply]
  rcases hR.lookahead hs with ⟨hp, hq⟩ | ⟨t, u, hp, hq, ht⟩
  · have hends : R.Ends w₁ (peek p) (peek q) := by
      simpa only [peek, hp, hq] using hR.pull hs hp hq
    generalize hpeek : peek p = r at hends
    generalize hpeek' : peek q = s at hends
    cases hends with
    | @answer w₂ t u p' q' hw' hs' ht =>
        have hp' := lookahead_peek hpeek
        have hq' := lookahead_peek hpeek'
        rcases hR.lookahead hs' with ⟨hnone, -⟩ | ⟨t', u', ht', hu', htoken⟩
        · rw [hp'] at hnone
          cases hnone
        · obtain rfl := Option.some.inj (hp'.symm.trans ht')
          obtain rfl := Option.some.inj (hq'.symm.trans hu')
          exact hR.earlier hw' (hf _ _ _ _ _ (hR.trans hw hw') hs' hp' hq' htoken)
    | failure hw' hf => exact .failure hw' hf
    | exhausted p q => exact .exhausted p q
  · rw [peek_of_lookahead hp, peek_of_lookahead hq]
    exact hf _ _ _ _ _ hw hs hp hq ht

/-- Both runs take their token, or neither does because the source has ended. -/
theorem kept_advance : R.Kept advance := fun _ => by
  refine hR.peek_bind fun w₁ p q t u _ hs hp hq ht => ?_
  rw [← hR.kind ht]
  split
  next => exact hR.ends (hR.pure (.of_rel ht)) hs
  next hne => exact .answer (hR.refl w₁) (hR.drop hs hp hq hne) (.of_rel ht)

/-- Both runs have the kind that is asked for or neither does, and then both reject. -/
theorem kept_expect (kind : TokenKind) : R.Kept (expect kind) := fun _ => by
  refine hR.peek_bind fun w₁ p q t u _ hs hp hq ht => ?_
  rw [← hR.kind ht, ← hR.pos ht]
  split
  next => exact hR.ends (kept_advance hR w₁) hs
  next => exact .failure (hR.refl w₁) (hR.expected _ hs hp hq ht)

theorem kept_at? (kind : TokenKind) : R.Kept (at? kind) := fun _ => by
  refine hR.peek_bind fun w₁ p q t u _ hs hp hq ht => ?_
  rw [← hR.kind ht]
  exact hR.ends (hR.pure (.bool _ _)) hs

theorem kept_eat (kind : TokenKind) : R.Kept (eat kind) := fun w =>
  hR.follows (kept_at? hR kind w) fun w₁ _ _ _ ha =>
    Follows.ite ha (hR.follows (kept_advance hR w₁) fun _ _ _ _ _ => hR.pure (.bool _ _))
      (hR.pure (.bool _ _))

/-! ### Binary expressions -/

variable {operand expr primaryExpr : Parse Expr} {block : Parse Block} {statement : Parse Stmt}

/-- The stack of waiting operands is alike in both runs, and it never fills up. -/
theorem follows_operators (ho : R.Kept operand) (n : Nat) {ws vs : List Waiting} {e f : Expr}
    (hws : Rising ws) (hvs : Rising vs) (hw : Alike (R.token w) ws vs)
    (he : Alike (R.token w) e f) :
    R.Follows w (operators operand n ws e) (operators operand n vs f) := by
  induction n generalizing w ws vs e f with
  | zero => exact fun _ p q _ _ => .exhausted p q
  | succ n ih =>
      refine hR.peek_bind fun w₁ p q t u le₁ hs _ _ ht => ?_
      rw [← hR.kind ht]
      have hw₁ := hR.later hw le₁
      have he₁ := hR.later he le₁
      cases BinOp.ofToken? t.kind with
      | none => exact hR.ends (hR.pure (alike_closeAll hw₁ he₁)) hs
      | some op =>
          refine hR.ends (hR.follows (kept_advance hR w₁) fun w₂ t' u' le₂ ht' => ?_) hs
          have hc := alike_closeAbove op (hR.later hw₁ le₂) (hR.later he₁ le₂)
          dsimp only
          rw [if_neg (hws.length_closeAbove op e), if_neg (hvs.length_closeAbove op f),
            ← hR.pos_eq ht']
          refine hR.follows (ho w₂) fun w₃ rhs rhs' le₃ hrhs => ?_
          exact ih (hws.push op _ e) (hvs.push op _ f)
            (.cons (alike_waiting op (hR.later hc.2 le₃) _) (hR.later hc.1 le₃)) hrhs

theorem kept_binary (ho : R.Kept operand) : R.Kept (binary operand) := fun w =>
  hR.follows (ho w) fun _ _ _ _ he =>
    hR.bounded fun n => follows_operators hR ho n .nil .nil (.nil _) he

/-! ### Operands -/

theorem kept_signs (hp : R.Kept primaryExpr) (n : Nat) : R.Kept (signs primaryExpr n) := by
  induction n with
  | zero => exact fun _ _ p q _ _ => .exhausted p q
  | succ n ih =>
      intro w
      refine hR.peek_bind fun w₁ p q t u _ hs _ _ ht => ?_
      rw [← hR.kind ht, ← hR.pos ht]
      split
      next op _ =>
        refine hR.ends (hR.follows (kept_advance hR w₁) fun w₂ _ _ _ _ => ?_) hs
        exact hR.follows (ih w₂) fun _ _ _ _ he => hR.pure (.unary op he _)
      next => exact hR.ends (hp w₁) hs

theorem kept_unary (hp : R.Kept primaryExpr) : R.Kept (unary primaryExpr) := fun w =>
  hR.bounded fun n => kept_signs hR hp n w

theorem kept_separator : R.Kept separator := fun w =>
  hR.follows (kept_at? hR .rParen w) fun w₁ _ _ _ ha =>
    Follows.ite ha (hR.pure (.unit _))
      (hR.follows (kept_expect hR .comma w₁) fun _ _ _ _ _ => hR.pure (.unit _))

/-- Both runs find the end of the arguments at the same token. -/
theorem kept_arguments (he : R.Kept expr) (n : Nat) : R.Kept (arguments expr n) := by
  induction n with
  | zero => exact fun _ _ p q _ _ => .exhausted p q
  | succ n ih =>
      intro w
      refine hR.peek_bind fun w₁ p q t u _ hs hp hq ht => ?_
      rw [← hR.kind ht, ← hR.pos ht]
      split
      · exact hR.ends (hR.pure (.nil _)) hs
      split
      · exact .failure (hR.refl w₁) (hR.expected _ hs hp hq ht)
      · refine hR.ends (hR.follows (he w₁) fun w₂ a b _ ha => ?_) hs
        refine hR.follows (kept_separator hR w₂) fun w₃ _ _ le₃ _ => ?_
        refine hR.follows (ih w₃) fun w₄ as bs le₄ has => ?_
        exact hR.pure (.cons (hR.later ha (hR.trans le₃ le₄)) has)

theorem kept_call (he : R.Kept expr) : R.Kept (call expr) := by
  intro w
  refine hR.follows (kept_expect hR .money w) fun w₁ t u le₁ ht => ?_
  refine hR.follows (kept_expect hR .lParen w₁) fun w₂ _ _ le₂ _ => ?_
  refine hR.follows (he w₂) fun w₃ callee callee' le₃ hcallee => ?_
  refine hR.follows (hR.bounded fun n => kept_arguments hR he n w₃) fun w₄ as bs le₄ has => ?_
  refine hR.follows (kept_expect hR .rParen w₄) fun w₅ _ _ le₅ _ => ?_
  rw [hR.pos_eq ht]
  exact hR.pure (.call (hR.later hcallee (hR.trans le₄ le₅)) (hR.later has le₅) _)

theorem kept_parameters (n : Nat) : R.Kept (parameters n) := by
  induction n with
  | zero => exact fun _ _ p q _ _ => .exhausted p q
  | succ n ih =>
      intro w
      refine hR.peek_bind fun w₁ p q t u _ hs _ _ ht => ?_
      rw [← hR.kind ht]
      split
      · refine hR.ends (hR.follows (kept_advance hR w₁) fun w₂ a b _ ha => ?_) hs
        refine hR.follows (kept_expect hR .comma w₂) fun w₃ _ _ le₃ _ => ?_
        refine hR.follows (ih w₃) fun w₄ as bs le₄ has => ?_
        exact hR.pure (.cons (hR.later ha (hR.trans le₃ le₄)) has)
      · exact hR.ends (hR.pure (.nil _)) hs

theorem kept_func (hb : R.Kept block) : R.Kept (func block) := by
  intro w
  refine hR.follows (kept_expect hR .lBracket w) fun w₁ t u le₁ ht => ?_
  refine hR.follows (kept_expect hR .colon w₁) fun w₂ _ _ le₂ _ => ?_
  refine hR.follows (hR.bounded fun n => kept_parameters hR n w₂) fun w₃ as bs le₃ has => ?_
  refine hR.follows (kept_expect hR .colon w₃) fun w₄ _ _ le₄ _ => ?_
  refine hR.follows (hb w₄) fun w₅ body body' le₅ hbody => ?_
  refine hR.follows (kept_expect hR .rBracket w₅) fun w₆ _ _ le₆ _ => ?_
  rw [hR.pos_eq ht]
  exact hR.pure (.func (hR.later has (hR.trans le₄ (hR.trans le₅ le₆))) (hR.later hbody le₆) _)

theorem kept_primary (he : R.Kept expr) (hb : R.Kept block) : R.Kept (primary expr block) := by
  intro w
  refine hR.peek_bind fun w₁ p q t u _ hs hp hq ht => ?_
  rw [← hR.kind ht, ← hR.pos ht]
  split
  · exact hR.ends (hR.follows (kept_advance hR w₁) fun _ _ _ _ ha => hR.pure (.literal ha)) hs
  split
  · refine hR.ends (hR.follows (kept_advance hR w₁) fun w₂ _ _ _ _ => ?_) hs
    refine hR.follows (he w₂) fun w₃ a b _ ha => ?_
    exact hR.follows (kept_expect hR .rParen w₃) fun w₄ _ _ le₄ _ => hR.pure (hR.later ha le₄)
  · exact hR.ends (kept_func hR hb w₁) hs
  · exact hR.ends (hR.follows (kept_call hR he w₁) fun _ _ _ _ hc => hR.pure (.exprCall hc)) hs
  · exact .failure (hR.refl w₁) (hR.expected _ hs hp hq ht)
  · exact .failure (hR.refl w₁) (hR.unrecognised hs hp hq ht)

/-! ### Statements -/

theorem kept_assign (he : R.Kept expr) : R.Kept (assign expr) := by
  intro w
  refine hR.follows (kept_expect hR .identifier w) fun w₁ t u le₁ ht => ?_
  refine hR.follows (kept_expect hR .is w₁) fun w₂ _ _ le₂ _ => ?_
  refine hR.follows (he w₂) fun w₃ value value' le₃ hvalue => ?_
  rw [hR.pos_eq ht]
  exact hR.pure (.assign (hR.later ht (hR.trans le₂ le₃)) hvalue _)

theorem kept_partialMark : R.Kept partialMark := fun w =>
  hR.follows (kept_eat hR .colon w) fun w₁ _ _ _ ha =>
    Follows.ite ha
      (hR.follows (kept_expect hR .partialWord w₁) fun _ _ _ _ _ => hR.pure (.bool _ _))
      (hR.pure (.bool _ _))

theorem kept_define (he : R.Kept expr) : R.Kept (define expr) := by
  intro w
  refine hR.follows (kept_expect hR .defWord w) fun w₁ t u le₁ ht => ?_
  refine hR.follows (kept_expect hR .identifier w₁) fun w₂ name name' le₂ hname => ?_
  refine hR.follows (kept_partialMark hR w₂) fun w₃ mark mark' le₃ hmark => ?_
  refine hR.follows (kept_expect hR .is w₃) fun w₄ _ _ le₄ _ => ?_
  refine hR.follows (he w₄) fun w₅ value value' le₅ hvalue => ?_
  rw [hR.pos_eq ht, hmark.bool_eq]
  exact hR.pure (.define (hR.later hname (hR.trans le₃ (hR.trans le₄ le₅))) _ hvalue _)

theorem kept_alternative (hb : R.Kept block) : R.Kept (alternative block) := fun w =>
  hR.follows (kept_eat hR .colon w) fun w₁ _ _ _ ha =>
    Follows.ite ha (hR.follows (hb w₁) fun _ _ _ _ hblock => hR.pure hblock.some)
      (hR.pure (.none _))

theorem kept_branch (he : R.Kept expr) (hb : R.Kept block) : R.Kept (branch expr block) := by
  intro w
  refine hR.follows (kept_expect hR .whenWord w) fun w₁ t u le₁ ht => ?_
  refine hR.follows (he w₁) fun w₂ condition condition' le₂ hcond => ?_
  refine hR.follows (hb w₂) fun w₃ body body' le₃ hbody => ?_
  refine hR.follows (kept_alternative hR hb w₃) fun w₄ other other' le₄ hother => ?_
  rw [hR.pos_eq ht]
  exact hR.pure
    (.branch (hR.later hcond (hR.trans le₃ le₄)) (hR.later hbody le₄) hother _)

theorem kept_loop (he : R.Kept expr) (hb : R.Kept block) : R.Kept (loop expr block) := by
  intro w
  refine hR.follows (kept_expect hR .whileWord w) fun w₁ t u le₁ ht => ?_
  refine hR.follows (he w₁) fun w₂ condition condition' le₂ hcond => ?_
  refine hR.follows (hb w₂) fun w₃ body body' le₃ hbody => ?_
  rw [hR.pos_eq ht]
  exact hR.pure (.loop (hR.later hcond le₃) hbody _)

theorem kept_optional (he : R.Kept expr) : R.Kept (optional expr) := by
  intro w
  refine hR.peek_bind fun w₁ p q t u _ hs _ _ ht => ?_
  rw [← hR.kind ht]
  split
  · exact hR.ends (hR.follows (he w₁) fun _ _ _ _ hvalue => hR.pure hvalue.some) hs
  · exact hR.ends (hR.pure (.none _)) hs

theorem kept_ret (he : R.Kept expr) : R.Kept (ret expr) := by
  intro w
  refine hR.follows (kept_expect hR .returnWord w) fun w₁ t u le₁ ht => ?_
  refine hR.follows (kept_optional hR he w₁) fun w₂ value value' le₂ hvalue => ?_
  rw [hR.pos_eq ht]
  exact hR.pure (.ret hvalue _)

/-- Both runs see a statement of the same sort. -/
theorem kept_stmt (he : R.Kept expr) (hb : R.Kept block) : R.Kept (stmt expr block) := by
  intro w
  refine hR.peek_bind fun w₁ p q t u _ hs hp hq ht => ?_
  rw [← hR.kind ht, ← hR.pos ht]
  split
  · exact hR.ends (kept_assign hR he w₁) hs
  · exact hR.ends (kept_define hR he w₁) hs
  · exact hR.ends (kept_branch hR he hb w₁) hs
  · exact hR.ends (kept_loop hR he hb w₁) hs
  · exact hR.ends (kept_ret hR he w₁) hs
  · exact hR.ends (hR.follows (kept_call hR he w₁) fun _ _ _ _ hc => hR.pure (.stmtCall hc)) hs
  · exact hR.ends (hR.follows (hb w₁) fun _ _ _ _ hblock => hR.pure (.stmtBlock hblock)) hs
  · exact .failure (hR.refl w₁) (hR.unrecognised hs hp hq ht)

/-- Both runs come to the end of the statements together. -/
theorem kept_stmts (stop : TokenKind → Bool) (hst : R.Kept statement) (n : Nat) :
    R.Kept (stmts stop statement n) := by
  induction n with
  | zero => exact fun _ _ p q _ _ => .exhausted p q
  | succ n ih =>
      intro w
      refine hR.peek_bind fun w₁ p q t u _ hs _ _ ht => ?_
      rw [← hR.kind ht]
      split
      · exact hR.ends (hR.follows (kept_advance hR w₁) fun w₂ _ _ _ _ => ih w₂) hs
      split
      · exact hR.ends (hR.pure (.nil _)) hs
      · refine hR.ends (hR.follows (hst w₁) fun w₂ a b _ ha => ?_) hs
        exact hR.follows (ih w₂) fun w₃ as bs le₃ has => hR.pure (.cons (hR.later ha le₃) has)

theorem kept_braced (hst : R.Kept statement) : R.Kept (braced statement) := by
  intro w
  refine hR.follows (kept_expect hR .lBrace w) fun w₁ t u le₁ ht => ?_
  refine hR.follows (hR.bounded fun n => kept_stmts hR _ hst n w₁) fun w₂ as bs le₂ has => ?_
  refine hR.follows (kept_expect hR .rBrace w₂) fun w₃ _ _ le₃ _ => ?_
  rw [hR.pos_eq ht]
  exact hR.pure (.block (hR.later has le₃) _)

/-! ### Whole sources -/

/-- **Expressions and blocks** keep two runs together, at every depth. -/
theorem kept_within (n : Nat) : R.Kept (exprWithin n) ∧ R.Kept (blockWithin n) := by
  induction n with
  | zero => exact ⟨fun _ _ p q _ _ => .exhausted p q, fun _ _ p q _ _ => .exhausted p q⟩
  | succ n ih =>
      obtain ⟨he, hb⟩ := ih
      exact ⟨kept_binary hR (kept_unary hR (kept_primary hR he hb)),
        kept_braced hR (kept_stmt hR he hb)⟩

/-- **Programs** keep two runs together. -/
theorem kept_program : R.Kept (bounded programWithin) := fun w =>
  hR.bounded fun n => by
    obtain ⟨he, hb⟩ := kept_within hR n
    refine hR.follows (kept_stmts hR _ (kept_stmt hR he hb) n w) fun _ as bs _ has => ?_
    exact hR.pure (.program has)

/-- A parser that reaches no bound answers in both runs or fails in both. -/
theorem Sound.run {x : Parse α} {h : ∀ p, Settles 0 x p} (hx : R.Kept x) (hs : R.state w p q) :
    (∃ w' a b p' q', R.later w w' ∧ Parser.run x h p = (.ok a, p') ∧
        Parser.run x h q = (.ok b, q') ∧ R.state w' p' q' ∧ Alike (R.token w') a b) ∨
      ∃ w' e f p' q', R.later w w' ∧ Parser.run x h p = (.error e, p') ∧
        Parser.run x h q = (.error f, q') ∧ R.failed w' (e, p') (f, q') := by
  have hends : R.Ends w _ _ := hR.ends (hx w) hs
  generalize hp : x p = r at hends
  generalize hq : x q = s at hends
  cases hends with
  | answer hw hs' ha =>
      exact .inl ⟨_, _, _, _, _, hw, run_eq_ok.mpr hp, run_eq_ok.mpr hq, hs', ha⟩
  | failure hw hf => exact .inr ⟨_, _, _, _, _, hw, run_eq_error.mpr hp, run_eq_error.mpr hq, hf⟩
  | exhausted => exact absurd hp (h p).ne_exhausted

/-- **Two runs.**  The parser reads a program in both or fails in both.  The programs are alike but
for their tokens, and the errors are such as the simulation allows. -/
theorem Sound.parseProgram (hs : R.state w p q) :
    (∃ w' prog prog' p' q', Parser.parseProgram p = (.ok prog, p') ∧
        Parser.parseProgram q = (.ok prog', q') ∧ R.state w' p' q' ∧
        Alike (R.token w') prog prog') ∨
      ∃ w' e f p' q', Parser.parseProgram p = (.error e, p') ∧
        Parser.parseProgram q = (.error f, q') ∧ R.failed w' (e, p') (f, q') := by
  rcases hR.run (h := settles_program) (kept_program hR) hs with
    ⟨w', prog, prog', p', q', -, hanswer⟩ | ⟨w', e, f, p', q', -, hfailure⟩
  · exact .inl ⟨w', prog, prog', p', q', hanswer⟩
  · exact .inr ⟨w', e, f, p', q', hfailure⟩

end Sound

end Simulation

end ScriptLang.Parser
