import ScriptLang.Proofs.Parser.Calls

/-!
# The stack of waiting operands never fills up

A binary expression is read in turns: each takes an operator, closes what binds at least as tight,
lets the rest wait with the operator and reads the operand behind it.  `turn` is one of them, and
`Loops operand p ws e q` says that the loop which began at the parser `p` comes to the parser `q`
with the operands `ws` waiting for `e`.

A turn puts an operator on the stack only behind operators of lower priorities, so the priorities
rise towards the top at the start of every turn.  There are six of them, and room for ten.  What
stands in parentheses, calls and functions is read from a stack of its own.

* `loops_rising`: priorities rise on every stack.
* `binary_of_loops`: the loop goes on from its states, so those are the states of the parser.
* `hasRoom_parse`: no request fails for want of room, by a run beside itself.
* **No overflow** (`operators_never_overflow`), with all entry points together.
-/

namespace ScriptLang.Parser

variable {operand : Parse Expr} {p q : Parser} {waiting : List Waiting} {rhs : Expr}

/-! ### Turns -/

/-- One turn: nothing if no operator follows, and otherwise what waits after it and the operand
behind the operator. -/
def turn (operand : Parse Expr) (waiting : List Waiting) (rhs : Expr) :
    Parse (Option (List Waiting × Expr)) := do
  let t ← peek
  match BinOp.ofToken? t.kind with
  | none => pure none
  | some op =>
    let t ← advance
    let closed := closeAbove op waiting rhs
    if closed.1.length = waitingCapacity then reject (.operatorOverflow t.pos)
    else
      let rhs ← operand
      pure (some ({ lhs := closed.2, op := op, span := t.pos } :: closed.1, rhs))

/-- The loop is turns until one finds no operator. -/
theorem operators_succ (operand : Parse Expr) (n : Nat) (waiting : List Waiting) (rhs : Expr) :
    operators operand (n + 1) waiting rhs = turn operand waiting rhs >>= fun next =>
      match next with
      | none => pure (closeAll waiting rhs)
      | some (waiting, rhs) => operators operand n waiting rhs := by
  rw [operators, turn, Attempt.bind_assoc]
  funext p
  refine Attempt.bind_congr fun t q _ => ?_
  cases BinOp.ofToken? t.kind with
  | none => rfl
  | some op =>
      dsimp only
      rw [Attempt.bind_assoc]
      refine Attempt.bind_congr fun t r _ => ?_
      split
      · rfl
      · rw [Attempt.bind_assoc]
        rfl

/-- **A turn that goes on** has taken an operator and an operand, and has put the operator with what
it closed on what it did not close. -/
theorem turn_eq_some {ws : List Waiting} {e : Expr}
    (h : turn operand waiting rhs p = (.ok (some (ws, e)), q)) :
    ∃ t op t' p₁ p₂, peek p = (.ok t, p₁) ∧ BinOp.ofToken? t.kind = some op ∧
      advance p₁ = (.ok t', p₂) ∧ operand p₂ = (.ok e, q) ∧
      ws = { lhs := (closeAbove op waiting rhs).2, op := op, span := t'.pos } ::
        (closeAbove op waiting rhs).1 := by
  obtain ⟨t, p₁, hpeek, h⟩ := Attempt.bind_eq_ok_iff.mp h
  cases hop : BinOp.ofToken? t.kind with
  | none => simp [hop] at h
  | some op =>
      simp only [hop] at h
      obtain ⟨t', p₂, hadvance, h⟩ := Attempt.bind_eq_ok_iff.mp h
      split at h
      · cases h
      · obtain ⟨rhs, p₃, hoperand, h⟩ := Attempt.bind_eq_ok_iff.mp h
        cases h
        exact ⟨t, op, t', p₁, p₂, hpeek, hop, hadvance, hoperand, rfl⟩

/-! ### All turns of a loop -/

/-- The states in which a turn begins when a binary expression is read from `p`. -/
inductive Loops (operand : Parse Expr) (p : Parser) : List Waiting → Expr → Parser → Prop where
  | first {e : Expr} {q : Parser} (h : operand p = (.ok e, q)) : Loops operand p [] e q
  | next {ws ws' : List Waiting} {e e' : Expr} {q r : Parser} (hloop : Loops operand p ws e q)
      (h : turn operand ws e q = (.ok (some (ws', e')), r)) : Loops operand p ws' e' r

/-- **Priorities rise** from the bottom of the stack to its top, at every turn. -/
theorem loops_rising (h : Loops operand p waiting rhs q) : Rising waiting := by
  induction h with
  | first => exact .nil
  | next _ hturn ih =>
      obtain ⟨t, op, t', p₁, p₂, -, -, -, -, rfl⟩ := turn_eq_some hturn
      exact ih.push op t'.pos _

/-- Six priorities give room for six. -/
theorem Rising.length_le_six (h : Rising waiting) : waiting.length ≤ 6 :=
  h.length_le fun w _ => Nat.lt_succ_of_le (priority_mem w.op).2

/-- What an operator leaves waiting is less than that. -/
theorem Rising.length_closeAbove_le (h : Rising waiting) (op : BinOp) (rhs : Expr) :
    (closeAbove op waiting rhs).1.length ≤ 5 :=
  Nat.le_of_succ_le_succ (h.push op default rhs).length_le_six

/-- Every bound over the unread source gives the loop as it is. -/
theorem operators_eq_bounded (ho : ∀ p, Settles 1 operand p) (h : Rising waiting) (rhs : Expr)
    {n : Nat} (hn : q.remaining < n) :
    operators operand n waiting rhs q =
      bounded (fun n => operators operand n waiting rhs) q := by
  simp only [operators_eq_climb _ h]
  have hrefines : Refines (climb operand 5 n waiting rhs) (climbs operand 5 waiting rhs) :=
    .bounded (fun n => refines_climb n waiting rhs)
      (fun p => settles_climb ho _ waiting rhs p (Nat.lt_succ_self _)) n
  exact hrefines.eq (settles_climb ho n waiting rhs q hn)

/-- **The loop goes on from its states**: from each of them, what is left of it gives the answer or
the error of the whole expression, and leaves the same parser. -/
theorem binary_of_loops (ho : ∀ p, Settles 1 operand p) (h : Loops operand p waiting rhs q) :
    binary operand p = bounded (fun n => operators operand n waiting rhs) q := by
  induction h with
  | first h => rw [binary, Attempt.bind_apply, h]
  | @next ws ws' e e' q r hloop hturn ih =>
      obtain ⟨t, op, t', p₁, p₂, hpeek, hop, hadvance, hoperand, -⟩ := turn_eq_some hturn
      have hlt := remaining_lt_of_operand ho hpeek hop hadvance hoperand
      have hstep : operators operand (q.remaining + 1) ws e q =
          operators operand q.remaining ws' e' r := by
        rw [operators_succ, Attempt.bind_apply, hturn]
      rw [ih, bounded, hstep]
      exact operators_eq_bounded ho (loops_rising (.next hloop hturn)) e' hlt

/-! ### Failures -/

/-- A run beside itself that does not fail for want of room. -/
def roomy : Simulation Unit where
  later _ _ := True
  state _ p q := p = q
  token _ t u := t = u
  failed _ x y := x = y ∧ ∀ pos, x.1 ≠ .operatorOverflow pos

/-- Pulling, dropping and rejecting tokens never fail for want of room. -/
theorem sound_roomy : roomy.Sound where
  refl _ := trivial
  trans _ _ := trivial
  mono _ ht := ht
  kind := congrArg Token.kind
  pos := congrArg Token.pos
  remaining := congrArg Parser.remaining
  lookahead := by
    rintro _ p _ rfl
    cases hp : p.lookahead with
    | none => exact .inl ⟨rfl, rfl⟩
    | some t => exact .inr ⟨t, t, rfl, rfl, rfl⟩
  pull := by
    rintro w p _ rfl - -
    have hlater : roomy.later w w := trivial
    unfold pull
    rcases p.lexer.nextToken with ⟨e | t, l⟩
    · exact .failure hlater ⟨rfl, nofun⟩
    · exact .answer hlater rfl (.of_rel rfl)
  drop := by
    rintro _ p _ t u rfl - - -
    rfl
  expected := by
    rintro _ p _ t u x rfl - - -
    exact ⟨rfl, nofun⟩
  unrecognised := by
    rintro _ p _ t u rfl - - -
    exact ⟨rfl, nofun⟩

/-- Reading that never fails for want of room. -/
def HasRoom {α : Type} (x : Reading α) : Prop :=
  ∀ p q pos, x p ≠ (.error (.operatorOverflow pos), q)

namespace HasRoom

variable {α β : Type}

theorem pure (a : α) : HasRoom (Pure.pure a) := by
  intro p q pos h
  cases h

theorem bind {x : Reading α} {f : α → Reading β} (hx : HasRoom x) (hf : ∀ a, HasRoom (f a)) :
    HasRoom (x >>= f) := by
  intro p q pos h
  rw [Attempt.bind_apply] at h
  split at h
  next a r _ => exact hf a r q pos h
  next e r hfail =>
    cases h
    exact hx p q pos hfail

theorem run {x : Parse α} [HasTokens α] {h : ∀ p, Settles 0 x p} (hx : roomy.Kept x) :
    HasRoom (Parser.run x h) := by
  intro p q pos heq
  rcases sound_roomy.run (h := h) hx (w := ()) (p := p) rfl with
    ⟨_, _, _, _, _, -, hp, -⟩ | ⟨_, e, _, _, _, -, hp, -, -, hroom⟩
  · cases hp.symm.trans heq
  · cases hp.symm.trans heq
    exact hroom pos rfl

theorem source {x : Reading α} (h : HasRoom x) (source : Text) (options : LexerOptions)
    (pos : Position) : x.source source options ≠ .error (.operatorOverflow pos) := by
  intro heq
  unfold Reading.source at heq
  split at heq
  next => cases heq
  next e q hx =>
    cases heq
    exact h _ q pos hx

end HasRoom

/-- **No request overflows**, from any state of the parser. -/
theorem hasRoom_parse (r : Request) : HasRoom r.parse := by
  rw [r.parse_eq]
  exact .run (Simulation.kept_request sound_roomy r)

theorem HasRoom.only {α : Type} {x : Reading α} (h : HasRoom x) : HasRoom x.only :=
  h.bind fun _ => .bind (.run (Simulation.kept_expect sound_roomy .eof)) fun _ => .pure _

/-- **No overflow.**

* At every turn of the loop that reads a binary expression, over any parser of operands and so at
  any depth, the priorities of the waiting operators rise from the bottom of the stack to its top,
  at most six wait, and at most five once the next operator has closed what it closes.
* The turns are those of the parser: from each of them the loop goes on to the answer or the error
  of the expression.
* No request and no source is refused because too many operators wait, whatever state the parser
  is in. -/
theorem operators_never_overflow :
    (∀ (operand : Parse Expr) (p q : Parser) (waiting : List Waiting) (rhs : Expr),
      Loops operand p waiting rhs q → Rising waiting ∧ waiting.length ≤ 6 ∧
        ∀ op, (closeAbove op waiting rhs).1.length ≤ 5) ∧
    (∀ (p q : Parser) (waiting : List Waiting) (rhs : Expr),
      Loops (ofReading parseUnary) p waiting rhs q → ofReading parseExpr p =
        bounded (fun n => operators (ofReading parseUnary) n waiting rhs) q) ∧
    (∀ (r : Request) (p q : Parser) (pos : Position),
      r.parse p ≠ (.error (.operatorOverflow pos), q)) ∧
    ∀ (source : Text) (options : LexerOptions) (pos : Position),
      Program.parse source options ≠ .error (.operatorOverflow pos) ∧
      Block.parse source options ≠ .error (.operatorOverflow pos) ∧
      Expr.parse source options ≠ .error (.operatorOverflow pos) := by
  refine ⟨fun operand p q waiting rhs h => ?_, fun p q waiting rhs h => ?_, hasRoom_parse,
    fun source options pos => ⟨?_, ?_, ?_⟩⟩
  · have hrising := loops_rising h
    exact ⟨hrising, hrising.length_le_six, fun op => hrising.length_closeAbove_le op rhs⟩
  · rw [ofReading_parseExpr]
    refine binary_of_loops (fun p => ?_) h
    rw [parseUnary, ofReading_run]
    exact settles_unary p
  · exact (hasRoom_parse .program).source source options pos
  · exact (hasRoom_parse .block).only.source source options pos
  · exact (hasRoom_parse .expr).only.source source options pos

end ScriptLang.Parser
