import ScriptLang.Parser

/-!
# Bounds change no answer

A bound on repetition or nesting decides whether a parser runs out, and nothing else.  `Refines x y`
says that `y` does what `x` does wherever `x` does not run out.  It passes through every construct
of the grammar, so parsers with a higher bound refine those with a lower one (`refines_within`), and
all bounds that suffice give the same (`Refines.bounded`).

That turns the bounded parsers into equations without bounds: `parseUnary` is the parser of operands
that no bound stops, and an expression is the binary expression over it (`ofReading_parseExpr`).
-/

namespace ScriptLang.Parser

variable {α β : Type}

/-- Wherever `x` does not run out, `y` does the same. -/
def Refines (x y : Parse α) : Prop := ∀ p, (∃ q, x p = (.error .exhausted, q)) ∨ x p = y p

namespace Refines

theorem refl (x : Parse α) : Refines x x := fun _ => .inr rfl

theorem exhausted (y : Parse α) : Refines Parser.exhausted y := fun p => .inl ⟨p, rfl⟩

theorem trans {x y z : Parse α} (h₁ : Refines x y) (h₂ : Refines y z) : Refines x z := fun p => by
  rcases h₁ p with h | h
  · exact .inl h
  · rw [h]
    exact h₂ p

/-- Refinement passes through sequencing, which runs out only where one of its parts does. -/
theorem bind {x y : Parse α} {f g : α → Parse β} (hx : Refines x y)
    (hf : ∀ a, Refines (f a) (g a)) : Refines (x >>= f) (y >>= g) := fun p => by
  rw [Attempt.bind_apply, Attempt.bind_apply]
  rcases hx p with ⟨q, h⟩ | h
  · exact .inl ⟨q, by rw [h]⟩
  · rw [← h]
    split
    next a q _ => exact hf a q
    next => exact .inr rfl

/-- It passes through repetition, since both sides are bounded by the same unread source. -/
theorem at_remaining {x y : Nat → Parse α} (h : ∀ n, Refines (x n) (y n)) :
    Refines (Parser.bounded x) (Parser.bounded y) := fun p => h (p.remaining + 1) p

/-- What `x` does with a bound that suffices, it does with every bound that suffices. -/
theorem bounded {x : Nat → Parse α} (hx : ∀ n, Refines (x n) (x (n + 1)))
    (hs : ∀ p, Settles 0 (x (p.remaining + 1)) p) (n : Nat) : Refines (x n) (Parser.bounded x) := by
  have mono : ∀ n k, Refines (x n) (x (n + k)) := fun n k => by
    induction k with
    | zero => exact refl _
    | succ k ih => exact ih.trans (hx (n + k))
  intro p
  -- Below the bound of the state `x n` may run out; above it, it can do nothing new.
  rcases Nat.le_total n (p.remaining + 1) with hle | hle
  · obtain ⟨k, hk⟩ := Nat.exists_eq_add_of_le hle
    have h := mono n k p
    rwa [← hk] at h
  · obtain ⟨k, hk⟩ := Nat.exists_eq_add_of_le hle
    rcases mono (p.remaining + 1) k p with ⟨q, hq⟩ | h
    · exact absurd hq (hs p).ne_exhausted
    · rw [← hk] at h
      exact .inr h.symm

/-- A parser that never runs out is all that refines it. -/
theorem eq {x y : Parse α} (h : Refines x y) {p : Parser} {d : Nat} (hs : Settles d x p) :
    x p = y p := by
  rcases h p with ⟨q, hq⟩ | h
  · exact absurd hq hs.ne_exhausted
  · exact h

end Refines

/-! ### The constructs of the grammar -/

section Constructs

variable {expr expr' operand operand' : Parse Expr} {block block' : Parse Block}

/-- Over operands that run out less often, the loop over operators runs out less often.  The lemmas
that follow say the same of every construct. -/
theorem refines_operators (ho : Refines operand operand') (n : Nat) (waiting : List Waiting)
    (rhs : Expr) :
    Refines (operators operand n waiting rhs) (operators operand' n waiting rhs) := by
  induction n generalizing waiting rhs with
  | zero => exact .refl _
  | succ n ih =>
      refine .bind (.refl _) fun t => ?_
      split
      · exact .refl _
      · refine .bind (.refl _) fun _ => ?_
        dsimp only
        split
        · exact .refl _
        · exact ho.bind fun rhs => ih _ rhs

theorem refines_binary (ho : Refines operand operand') :
    Refines (binary operand) (binary operand') :=
  ho.bind fun first => .at_remaining fun n => refines_operators ho n [] first

theorem refines_signs (hp : Refines operand operand') (n : Nat) :
    Refines (signs operand n) (signs operand' n) := by
  induction n with
  | zero => exact .refl _
  | succ n ih =>
      refine .bind (.refl _) fun t => ?_
      split
      · exact .bind (.refl _) fun _ => ih.bind fun _ => .refl _
      · exact hp

theorem refines_arguments (he : Refines expr expr') (n : Nat) :
    Refines (arguments expr n) (arguments expr' n) := by
  induction n with
  | zero => exact .refl _
  | succ n ih =>
      refine .bind (.refl _) fun t => ?_
      split
      · exact .refl _
      split
      · exact .refl _
      · exact he.bind fun _ => .bind (.refl _) fun _ => ih.bind fun _ => .refl _

theorem refines_call (he : Refines expr expr') : Refines (call expr) (call expr') :=
  .bind (.refl _) fun _ => .bind (.refl _) fun _ => he.bind fun _ =>
    .bind (.at_remaining (refines_arguments he)) fun _ => .refl _

theorem refines_func (hb : Refines block block') : Refines (func block) (func block') :=
  .bind (.refl _) fun _ => .bind (.refl _) fun _ => .bind (.refl _) fun _ =>
    .bind (.refl _) fun _ => hb.bind fun _ => .refl _

theorem refines_primary (he : Refines expr expr') (hb : Refines block block') :
    Refines (primary expr block) (primary expr' block') := by
  refine .bind (.refl _) fun t => ?_
  split
  · exact .refl _
  split
  · exact .bind (.refl _) fun _ => he.bind fun _ => .refl _
  · exact refines_func hb
  · exact (refines_call he).bind fun _ => .refl _
  · exact .refl _
  · exact .refl _

theorem refines_stmt (he : Refines expr expr') (hb : Refines block block') :
    Refines (stmt expr block) (stmt expr' block') := by
  have halt : Refines (alternative block) (alternative block') := by
    refine .bind (.refl _) fun b => ?_
    split
    · exact hb.bind fun _ => .refl _
    · exact .refl _
  have hopt : Refines (optional expr) (optional expr') := by
    refine .bind (.refl _) fun t => ?_
    split
    · exact he.bind fun _ => .refl _
    · exact .refl _
  refine .bind (.refl _) fun t => ?_
  split
  · exact .bind (.refl _) fun _ => .bind (.refl _) fun _ => he.bind fun _ => .refl _
  · exact .bind (.refl _) fun _ => .bind (.refl _) fun _ => .bind (.refl _) fun _ =>
      .bind (.refl _) fun _ => he.bind fun _ => .refl _
  · exact .bind (.refl _) fun _ => he.bind fun _ => hb.bind fun _ => halt.bind fun _ => .refl _
  · exact .bind (.refl _) fun _ => he.bind fun _ => hb.bind fun _ => .refl _
  · exact .bind (.refl _) fun _ => hopt.bind fun _ => .refl _
  · exact (refines_call he).bind fun _ => .refl _
  · exact hb.bind fun _ => .refl _
  · exact .refl _

theorem refines_stmts {stop : TokenKind → Bool} {stmt stmt' : Parse Stmt} (hs : Refines stmt stmt')
    (n : Nat) : Refines (stmts stop stmt n) (stmts stop stmt' n) := by
  induction n with
  | zero => exact .refl _
  | succ n ih =>
      refine .bind (.refl _) fun t => ?_
      split
      · exact .bind (.refl _) fun _ => ih
      split
      · exact .refl _
      · exact hs.bind fun _ => ih.bind fun _ => .refl _

/-- More statements keep every answer and every error. -/
theorem refines_stmts_succ (stop : TokenKind → Bool) (stmt : Parse Stmt) (n : Nat) :
    Refines (stmts stop stmt n) (stmts stop stmt (n + 1)) := by
  induction n with
  | zero => exact .exhausted _
  | succ n ih =>
      refine .bind (.refl _) fun t => ?_
      split
      · exact .bind (.refl _) fun _ => ih
      split
      · exact .refl _
      · exact .bind (.refl _) fun _ => ih.bind fun _ => .refl _

theorem refines_braced {stmt stmt' : Parse Stmt} (hs : Refines stmt stmt') :
    Refines (braced stmt) (braced stmt') :=
  .bind (.refl _) fun _ => .bind (.at_remaining (refines_stmts hs)) fun _ => .refl _

end Constructs

/-! ### Nesting -/

/-- An operand that nests at most so deep. -/
def unaryWithin (n : Nat) : Parse Expr := unary (primary (exprWithin n) (blockWithin n))

theorem refines_unaryWithin {n : Nat} (he : Refines (exprWithin n) (exprWithin (n + 1)))
    (hb : Refines (blockWithin n) (blockWithin (n + 1))) :
    Refines (unaryWithin n) (unaryWithin (n + 1)) :=
  .at_remaining (refines_signs (refines_primary he hb))

/-- **More depth keeps every answer and every error.** -/
theorem refines_within (n : Nat) : Refines (exprWithin n) (exprWithin (n + 1)) ∧
    Refines (blockWithin n) (blockWithin (n + 1)) := by
  induction n with
  | zero => exact ⟨.exhausted _, .exhausted _⟩
  | succ n ih =>
      obtain ⟨he, hb⟩ := ih
      exact ⟨refines_binary (refines_unaryWithin he hb), refines_braced (refines_stmt he hb)⟩

theorem settlesBelow_unaryWithin (n : Nat) : SettlesBelow (n + 1) (unaryWithin n) :=
  settlesBelow_unary (settlesBelow_primary (settles_within n).1 (settles_within n).2)

theorem settles_unary (p : Parser) : Settles 1 (bounded unaryWithin) p :=
  .bounded (settlesBelow_unaryWithin _ p (by omega))

/-- Reads an operand: unary operators and a primary expression. -/
def parseUnary : Reading Expr :=
  run (bounded unaryWithin) fun p => (settles_unary p).mono (Nat.zero_le 1)

/-- Parsing that reaches no bound, as parsing that might. -/
def ofReading (x : Reading α) : Parse α := fun p =>
  match x p with
  | (.ok a, q) => (.ok a, q)
  | (.error e, q) => (.error (.error e), q)

/-- A parser that never runs out is the same before and after its bound is forgotten. -/
@[simp] theorem ofReading_run (x : Parse α) (h : ∀ p, Settles 0 x p) : ofReading (run x h) = x := by
  funext p
  cases hr : run x h p with
  | mk r q =>
      cases r with
      | ok a => simp [ofReading, hr, run_eq_ok.mp hr]
      | error e => simp [ofReading, hr, run_eq_error.mp hr]

/-- An operand read at some depth is read alike without a bound on depth. -/
theorem refines_bounded_unaryWithin (n : Nat) :
    Refines (unaryWithin n) (bounded unaryWithin) := by
  refine Refines.bounded (fun k => ?_) (fun p => ?_) n
  · exact refines_unaryWithin (refines_within k).1 (refines_within k).2
  · exact (settlesBelow_unaryWithin _ p (by omega)).mono (Nat.zero_le 1)

/-- **An expression is a binary expression over operands**, without bounds. -/
theorem ofReading_parseExpr : ofReading parseExpr = binary (ofReading parseUnary) := by
  rw [parseExpr, parseUnary, ofReading_run, ofReading_run]
  funext p
  have hr := refines_binary (refines_bounded_unaryWithin p.remaining)
  exact hr.eq (settlesBelow_binary (settlesBelow_unaryWithin _) p (Nat.lt_succ_self _))

end ScriptLang.Parser
