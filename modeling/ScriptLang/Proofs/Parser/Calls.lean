import ScriptLang.Proofs.Parser.Correctness
import ScriptLang.Proofs.Parser.Simulation

/-!
# Calls of the parser

One parser can be asked for a program, a block, a statement or an expression, and again after it has
answered or failed.  A `Request` is what it is asked for, `Request.parse` the reading that answers
it, and `afterCalls` the parser that a list of requests leaves, whatever became of them.

Nothing below is about one kind of request: all are answered by a parser that a bound on nesting
cannot stop (`Request.parse_eq`), and every bound over the unread source gives the same
(`Request.within_eq`).  So what a simulation keeps, it keeps through all calls.

* `Request.derives_of_parse`: an answer is derived from the tokens ahead.
* `Simulation.Sound.parse`: a run of one call beside itself.
* `Simulation.Sound.afterCalls`: the states that any calls leave.
-/

namespace ScriptLang.Parser

/-- What a parser can be asked for. -/
inductive Request where
  | program
  | block
  | stmt
  | expr
  deriving DecidableEq, Repr

namespace Request

/-- What answers a request. -/
def Answer : Request → Type
  | program => Program
  | block => Block
  | stmt => Stmt
  | expr => Expr

/-- Reads what is asked for. -/
def parse : (r : Request) → Reading r.Answer
  | program => parseProgram
  | block => parseBlock
  | stmt => parseStmt
  | expr => parseExpr

/-- Reads what is asked for if it nests at most so deep. -/
def within : (r : Request) → Nat → Parse r.Answer
  | program => programWithin
  | block => blockWithin
  | stmt => stmtWithin
  | expr => exprWithin

instance : (r : Request) → HasTokens r.Answer
  | program => inferInstanceAs (HasTokens Program)
  | block => inferInstanceAs (HasTokens Block)
  | stmt => inferInstanceAs (HasTokens Stmt)
  | expr => inferInstanceAs (HasTokens Expr)

/-! ### Bounds -/

/-- A bound over the unread source is enough for every request. -/
theorem settles_within (r : Request) (n : Nat) (p : Parser) (hp : p.remaining < n) :
    Settles 0 (r.within n) p := by
  cases r with
  | program =>
      exact (settles_stmts _ (settlesBelow_stmtWithin n) n p hp hp).bind fun _ q _ _ => .pure _ q
  | block => exact ((Parser.settles_within n).2 p hp).mono (Nat.zero_le 1)
  | stmt => exact (settlesBelow_stmtWithin n p hp).mono (Nat.zero_le 1)
  | expr => exact ((Parser.settles_within n).1 p hp).mono (Nat.zero_le 1)

theorem settles (r : Request) (p : Parser) : Settles 0 (bounded r.within) p :=
  .bounded (r.settles_within _ p (Nat.lt_succ_self _))

theorem parse_eq (r : Request) : r.parse = run (bounded r.within) r.settles := by
  cases r <;> rfl

/-- **A higher bound keeps every answer and every error** of a request. -/
theorem refines_within (r : Request) (n : Nat) : Refines (r.within n) (r.within (n + 1)) := by
  obtain ⟨he, hb⟩ := Parser.refines_within n
  cases r with
  | program =>
      -- Both the depth and the number of statements are bounded, and are raised one by one.
      have hcount := refines_stmts_succ (· == .eof) (stmtWithin (n + 1)) n
      exact ((refines_stmts (refines_stmt he hb) n).trans hcount).bind fun _ => .refl _
  | block => exact hb
  | stmt => exact refines_stmt he hb
  | expr => exact he

/-- **Every bound over the unread source gives the same** as no bound. -/
theorem within_eq (r : Request) {n : Nat} {p : Parser} (hp : p.remaining < n) :
    r.within n p = ofReading r.parse p := by
  have hbounded := Refines.bounded r.refines_within
    (fun p => r.settles_within _ p (Nat.lt_succ_self _)) n
  rw [parse_eq, ofReading_run]
  exact hbounded.eq (r.settles_within n p hp)

/-! ### Answers -/

open Grammar in
/-- The derivations of answers, between the tokens ahead and those left. -/
def Derives : (r : Request) → List Token → r.Answer → List Token → Prop
  | program => fun ts (prog : Program) rest => StmtsAt ts prog.stmts rest
  | block => BlockAt
  | stmt => StmtAt
  | expr => ExprAt

/-- **An answer is derived** from the tokens ahead. -/
theorem derives_of_parse {r : Request} {p q : Parser} {a : r.Answer}
    (h : r.parse p = (.ok a, q)) : r.Derives p.ahead.1 a q.ahead.1 := by
  rw [r.parse_eq, run_eq_ok] at h
  cases r with
  | program => exact ((reads_program p).sound h).1.1
  | block => exact ((reads_block p).sound h).1
  | stmt =>
      have hsettles := Parser.settles_within (p.remaining + 1)
      have hreads := reads_within (p.remaining + 1)
      have hstmt := readsBelow_stmt hsettles.1 hsettles.2 hreads.1 hreads.2
      exact ((hstmt p (Nat.lt_succ_self _)).sound h).1.1
  | expr => exact ((reads_expr p).sound h).1

end Request

/-- The parser after some requests, whether it answered them or not. -/
def afterCalls (p : Parser) (requests : List Request) : Parser :=
  requests.foldl (fun p r => (r.parse p).2) p

/-! ### What is kept through calls -/

namespace Simulation

variable {W : Type} {R : Simulation W} {w : W} {p : Parser} (hR : R.Sound)
include hR

/-- Every request keeps two runs together. -/
theorem kept_request (r : Request) : R.Kept (bounded r.within) := by
  have hbounded {α : Type} [HasTokens α] {x : Nat → Parse α} (hx : ∀ n, R.Kept (x n)) :
      R.Kept (bounded x) := fun w => hR.bounded fun n => hx n w
  cases r with
  | program => exact kept_program hR
  | block => exact hbounded fun n => (kept_within hR n).2
  | stmt => exact hbounded fun n => kept_stmt hR (kept_within hR n).1 (kept_within hR n).2
  | expr => exact hbounded fun n => (kept_within hR n).1

/-- **One call**, beside itself: it answers with tokens that the simulation knows, or it fails in a
way that the simulation allows. -/
theorem Sound.parse (hs : R.state w p p) (r : Request) :
    match r.parse p with
    | (.ok a, q) => ∃ w', R.later w w' ∧ R.state w' q q ∧ Alike (R.token w') a a
    | (.error e, q) => ∃ w', R.later w w' ∧ R.failed w' (e, q) (e, q) := by
  rw [r.parse_eq]
  rcases hR.run (h := r.settles) (kept_request hR r) hs with
    ⟨w', a, b, q, q', hw, hp, hp', hq, ha⟩ | ⟨w', e, f, q, q', hw, hp, hp', hf⟩
  · cases hp.symm.trans hp'
    rw [hp]
    exact ⟨w', hw, hq, ha⟩
  · cases hp.symm.trans hp'
    rw [hp]
    exact ⟨w', hw, hf⟩

/-- **Any calls**, if the parser that a failure leaves may go on. -/
theorem Sound.afterCalls (hf : ∀ w e q, R.failed w (e, q) (e, q) → R.state w q q)
    (hs : R.state w p p) (requests : List Request) :
    ∃ w', R.later w w' ∧ R.state w' (p.afterCalls requests) (p.afterCalls requests) := by
  induction requests generalizing w p with
  | nil => exact ⟨w, hR.refl w, hs⟩
  | cons r requests ih =>
      have hcall : ∃ w', R.later w w' ∧ R.state w' (r.parse p).2 (r.parse p).2 := by
        have hparse := hR.parse hs r
        generalize r.parse p = result at hparse
        obtain ⟨e | a, q⟩ := result
        · obtain ⟨w', hw, hfailed⟩ := hparse
          exact ⟨w', hw, hf w' e q hfailed⟩
        · obtain ⟨w', hw, hq, -⟩ := hparse
          exact ⟨w', hw, hq⟩
      obtain ⟨w₁, hw₁, hs₁⟩ := hcall
      obtain ⟨w₂, hw₂, hs₂⟩ := ih hs₁
      exact ⟨w₂, hR.trans hw₁ hw₂, hs₂⟩

end Simulation

end ScriptLang.Parser
