import ScriptLang.Proofs.Grammar.Prediction
import ScriptLang.Proofs.Lexer.Spelling
import ScriptLang.Proofs.Parser.Correctness
import ScriptLang.Proofs.Parser.Laziness

/-!
# Errors stand where a program stops being one

`Heeds due x p` says that the parser `x` keeps to the pieces that are due: if it answers, they
read the tokens it takes and are over at the next, and if it rejects a token, they read what is
before it and refuse it.  Each construct follows its pieces, so a whole program does, and what
pieces read can always be completed.

* `Took.trans`, `Took.stuck`: one piece after the other.
* `heeds_within`, `heeds_program`: expressions, blocks and programs.
* `Program.parse_of_covers`: what the pieces of a program read is accepted.
* **Correct prefixes** (`Program.parse_blames_first`).  The token that an error is about is the
  first at which the source stops being the beginning of a program.
-/

namespace ScriptLang

namespace Parser

open Grammar (Piece Response respond leaves onUnary onStmt stops)

variable {α β : Type} {due due' behind left : List Piece} {ts mid rest : List Token}
  {t : Token} {e : ParseError}

/-! ### Tokens and what is due -/

/-- The error is about a token: something else was expected, or nothing begins with it. -/
def Blames (e : ParseError) (t : Token) : Prop :=
  (∃ x, e = .expected x t.kind t.pos) ∨ t.kind ≠ .eof ∧ e = .unrecognised t.pos

/-- The pieces read the tokens up to `rest` and are over at the next. -/
def Took (due : List Piece) (ts rest : List Token) : Prop :=
  ∃ taken left, ts = taken ++ rest ∧ leaves due (taken.map Token.kind) = some left ∧
    ∀ t, rest.head? = some t → respond left t.kind = .passes

/-- The pieces read tokens up to one that they refuse, and that the error is about. -/
def Stuck (due : List Piece) (ts : List Token) (e : ParseError) : Prop :=
  ∃ taken t rest left, ts = taken ++ t :: rest ∧ leaves due (taken.map Token.kind) = some left ∧
    respond left t.kind = .refuses ∧ Blames e t

/-- Pieces that respond alike to the next token respond alike to what follows. -/
theorem run_switch {taken : List Token}
    (h : ∀ t, (taken ++ rest).head? = some t → respond due' t.kind = respond due t.kind)
    (hrun : leaves due (taken.map Token.kind) = some left) :
    ∃ left', leaves due' (taken.map Token.kind) = some left' ∧
      ∀ t, rest.head? = some t → respond left' t.kind = respond left t.kind := by
  cases taken with
  | nil =>
      cases hrun
      exact ⟨due', rfl, h⟩
  | cons u taken =>
      refine ⟨left, ?_, fun _ _ => rfl⟩
      rw [← hrun]
      exact Grammar.leaves_congr (h u rfl)

/-- What is due may be exchanged for what responds alike to the next token, where it is read. -/
theorem Took.congr (h : Took due ts rest)
    (heq : ∀ t, ts.head? = some t → respond due' t.kind = respond due t.kind) :
    Took due' ts rest := by
  obtain ⟨taken, left, rfl, hrun, hpasses⟩ := h
  obtain ⟨left', hrun', hleft⟩ := run_switch heq hrun
  exact ⟨taken, left', rfl, hrun', fun t ht => (hleft t ht).trans (hpasses t ht)⟩

/-- The same where a token is refused. -/
theorem Stuck.congr (h : Stuck due ts e)
    (heq : ∀ t, ts.head? = some t → respond due' t.kind = respond due t.kind) :
    Stuck due' ts e := by
  obtain ⟨taken, t, rest, left, rfl, hrun, hrefuses, he⟩ := h
  obtain ⟨left', hrun', hleft⟩ := run_switch heq hrun
  exact ⟨taken, t, rest, left', rfl, hrun', (hleft t rfl).trans hrefuses, he⟩

theorem Stuck.append (h : Stuck due ts e) (behind : List Piece) : Stuck (due ++ behind) ts e := by
  obtain ⟨taken, t, rest, left, hts, hrun, hrefuses, he⟩ := h
  refine ⟨taken, t, rest, left ++ behind, hts, Grammar.leaves_append hrun behind, ?_, he⟩
  rw [Grammar.respond_append, hrefuses]

/-- What is due behind pieces that are over responds as if it came first. -/
theorem respond_behind (hpasses : ∀ t, mid.head? = some t → respond left t.kind = .passes)
    (behind : List Piece) (t : Token) (ht : mid.head? = some t) :
    respond (left ++ behind) t.kind = respond behind t.kind := by
  rw [Grammar.respond_append, hpasses t ht]

/-- One piece after another. -/
theorem Took.trans (h : Took due ts mid) (h' : Took behind mid rest) :
    Took (due ++ behind) ts rest := by
  obtain ⟨taken, left, rfl, hrun, hpasses⟩ := h
  obtain ⟨taken', left', rfl, hrun', hpasses'⟩ := h'.congr (respond_behind hpasses behind)
  refine ⟨taken ++ taken', left', (List.append_assoc ..).symm, ?_, hpasses'⟩
  rw [List.map_append, Grammar.leaves_concat (Grammar.leaves_append hrun behind), hrun']

/-- A refusal after pieces that were read is a refusal by all of them. -/
theorem Took.stuck (h : Took due ts mid) (h' : Stuck behind mid e) :
    Stuck (due ++ behind) ts e := by
  obtain ⟨taken, left, rfl, hrun, hpasses⟩ := h
  obtain ⟨taken', t, rest, left', rfl, hrun', hrefuses, he⟩ :=
    h'.congr (respond_behind hpasses behind)
  refine ⟨taken ++ taken', t, rest, left', (List.append_assoc ..).symm, ?_, hrefuses, he⟩
  rw [List.map_append, Grammar.leaves_concat (Grammar.leaves_append hrun behind), hrun']

/-! ### Parsers that keep to what is due -/

/-- Looking at a token fails only where there is none. -/
theorem lex_of_peek {p q : Parser} {failure : Failure} (h : peek p = (.error failure, q)) :
    ∃ lexical, failure = .error (.lex lexical) := by
  unfold peek at h
  split at h
  · cases h
  · unfold pull at h
    dsimp only at h
    split at h
    · cases h
    · cases h
      exact ⟨_, rfl⟩

/-- From `p`, the parser takes what the pieces read, or rejects what they refuse. -/
structure Heeds (due : List Piece) (x : Parse α) (p : Parser) : Prop where
  answer : ∀ {a q}, x p = (.ok a, q) → Took due p.ahead.1 q.ahead.1
  rejection : ∀ {e q}, x p = (.error (.error e), q) →
    (∃ lexical, e = .lex lexical) ∨ Stuck due p.ahead.1 e

namespace Heeds

variable {x : Parse α} {p q : Parser}

theorem pure (a : α) (p : Parser) : Heeds [] (Pure.pure a : Parse α) p where
  answer hx := by
    cases hx
    exact ⟨[], [], rfl, rfl, fun _ _ => rfl⟩
  rejection := nofun

theorem exhausted (p : Parser) : Heeds due (Parser.exhausted : Parse α) p := ⟨nofun, nofun⟩

theorem reject (hp : p.ahead.1 = t :: ts) (h : respond due t.kind = .refuses) (he : Blames e t) :
    Heeds due (Parser.reject e : Parse α) p where
  answer := nofun
  rejection hx := by
    cases hx
    exact .inr ⟨[], t, ts, due, hp, rfl, h, he⟩

theorem bounded {x : Nat → Parse α} (h : ∀ n, Heeds due (x n) p) :
    Heeds due (Parser.bounded x) p :=
  ⟨(h (p.remaining + 1)).answer, (h (p.remaining + 1)).rejection⟩

/-- **One parser after another** keeps to what is due for the one and then for the other. -/
theorem bind {f : α → Parse β} (hx : Heeds due x p) (hf : ∀ a q, Heeds behind (f a) q) :
    Heeds (due ++ behind) (x >>= f) p := by
  constructor
  · intro b r hr
    obtain ⟨a, q, hq, hr⟩ := Attempt.bind_eq_ok_iff.mp hr
    exact (hx.answer hq).trans ((hf a q).answer hr)
  · intro e r hr
    rw [Attempt.bind_apply] at hr
    split at hr
    next a q hq => exact ((hf a q).rejection hr).imp_right (hx.answer hq).stuck
    next hq =>
      cases hr
      exact (hx.rejection hq).imp_right fun h => h.append behind

/-- What is due may be exchanged for what responds alike to the next token. -/
theorem congr (h : Heeds due x p)
    (heq : ∀ t, p.ahead.1.head? = some t → respond due' t.kind = respond due t.kind) :
    Heeds due' x p :=
  ⟨fun hx => (h.answer hx).congr heq,
    fun hx => (h.rejection hx).imp_right fun hstuck => hstuck.congr heq⟩

theorem congr_cons (h : Heeds due x p) (hp : p.ahead.1 = t :: ts)
    (heq : respond due' t.kind = respond due t.kind) : Heeds due' x p := by
  refine h.congr ?_
  rw [hp]
  rintro u ⟨⟩
  exact heq

/-- A parser that looks at the next token first may choose by it how to keep to what is due. -/
theorem peek_bind {f : Token → Parse α}
    (hf : ∀ t ts q, peek p = (.ok t, q) → q.ahead.1 = t :: ts → Heeds due (f t) q) :
    Heeds due (peek >>= f) p := by
  rcases hp : peek p with ⟨failure | t, q⟩
  · have hbind : (peek >>= f) p = (.error failure, q) := by rw [Attempt.bind_apply, hp]
    refine ⟨fun hx => ?_, fun hx => ?_⟩
    · rw [hbind] at hx
      cases hx
    · rw [hbind] at hx
      cases hx
      obtain ⟨lexical, hlex⟩ := lex_of_peek hp
      cases hlex
      exact .inl ⟨lexical, rfl⟩
  · obtain ⟨ts, hts⟩ := List.head?_eq_some_iff.mp (head?_ahead hp)
    rw [← ahead_peek hp] at hts
    have h := hf t ts q hp hts
    have hbind : (peek >>= f) p = f t q := by rw [Attempt.bind_apply, hp]
    constructor
    · intro a r hx
      rw [hbind] at hx
      rw [← ahead_peek hp]
      exact h.answer hx
    · intro e r hx
      rw [hbind] at hx
      rw [← ahead_peek hp]
      exact h.rejection hx

/-- Taking the token that was looked at. -/
theorem advance (hp : peek p = (.ok t, q)) (ht : t.kind ≠ .eof) :
    Heeds [.token t.kind] advance q := by
  have hlook := lookahead_peek hp
  have hadvance := advance_of_lookahead hlook ht
  constructor
  · intro u r hx
    have hahead := ((reads_advance hlook ht).sound hx).1
    rw [hadvance] at hx
    cases hx
    exact ⟨[t], [], hahead, by simp [leaves, respond, Piece.respond], fun _ _ => rfl⟩
  · intro e r hx
    rw [hadvance] at hx
    cases hx

theorem expect {kind : TokenKind} (hk : kind ≠ .eof) (p : Parser) :
    Heeds [.token kind] (expect kind) p := by
  refine .peek_bind fun t ts q hp hts => ?_
  split
  next ht =>
    rw [← ht]
    exact .advance hp (ht ▸ hk)
  next ht =>
    exact .reject hts (by simp [respond, Piece.respond, ht]) (.inl ⟨_, rfl⟩)

end Heeds

/-! ### Expressions -/

section Expr

variable {expr operand : Parse Expr} {block : Parse Block}

/-- Operators and their operands are what an expression may go on with, and the lemmas that follow
take each construct to the pieces of its rule. -/
theorem heeds_operators (ho : ∀ p, Heeds [.unary] operand p) (n : Nat) {ws : List Waiting}
    (hw : Rising ws) (rhs : Expr) (p : Parser) :
    Heeds [.items] (operators operand n ws rhs) p := by
  induction n generalizing ws rhs p with
  | zero => exact .exhausted p
  | succ n ih =>
      refine .peek_bind fun t ts q hq hts => ?_
      split
      next hop => exact (Heeds.pure _ q).congr_cons hts (by simp [respond, Piece.respond, hop])
      next op hop =>
        -- The stack has room, so its own error never comes up.
        simp only [if_neg (hw.length_closeAbove op rhs)]
        refine ((Heeds.advance hq (ne_eof_of_ofToken? hop)).bind fun u _ =>
          (ho _).bind fun e r => ih (hw.push op u.pos rhs) e r).congr_cons hts ?_
        simp [respond, Piece.respond, hop]

theorem heeds_binary (ho : ∀ p, Heeds [.unary] operand p) (p : Parser) :
    Heeds [.unary, .items] (binary operand) p :=
  (ho p).bind fun first q => .bounded fun n => heeds_operators ho n .nil first q

/-- The operand of a sign is due as the sign itself was, so the pieces do not grow with the
signs. -/
theorem heeds_signs {primary : Parse Expr}
    (hp : ∀ p t ts, p.ahead.1 = t :: ts → UnaryOp.ofToken? t.kind = none →
      Heeds [.unary] primary p) (n : Nat) (p : Parser) :
    Heeds [.unary] (signs primary n) p := by
  induction n generalizing p with
  | zero => exact .exhausted p
  | succ n ih =>
      refine .peek_bind fun t ts q hq hts => ?_
      split
      next op hop =>
        have hne : t.kind ≠ .eof := by
          intro h
          rw [h] at hop
          cases hop
        refine ((Heeds.advance hq hne).bind fun _ _ => (ih _).bind fun _ r =>
          .pure _ r).congr_cons hts ?_
        simp [respond, Piece.respond, onUnary, hop]
      next hop => exact hp q t ts hts hop

/-- A comma or the closing parenthesis, and then arguments. -/
theorem heeds_separator {f : Unit → Parse α} (hf : ∀ q, Heeds [.args] (f ()) q) (p : Parser) :
    Heeds [.moreArgs] (separator >>= f) p := by
  unfold separator
  rw [at?_bind, Attempt.bind_assoc]
  refine .peek_bind fun t ts q hq hts => ?_
  by_cases ht : t.kind = .rParen
  · simp only [ht, beq_self_eq_true, if_true, Attempt.pure_bind]
    exact (hf q).congr_cons hts (by simp [respond, Piece.respond, ht])
  · simp only [beq_eq_false_iff_ne.mpr ht, Bool.false_eq_true, if_false, Attempt.bind_assoc,
      Attempt.pure_bind]
    refine ((Heeds.expect (by decide) q).bind fun _ r => hf r).congr_cons hts ?_
    by_cases hc : t.kind = .comma <;> simp [respond, Piece.respond, ht, hc]

/-- Before an argument a parenthesis ends the list, and behind one a comma is due. -/
theorem heeds_arguments (he : ∀ p, Heeds [.expr] expr p) (n : Nat) (p : Parser) :
    Heeds [.args] (arguments expr n) p := by
  induction n generalizing p with
  | zero => exact .exhausted p
  | succ n ih =>
      refine .peek_bind fun t ts q hq hts => ?_
      split
      next ht => exact (Heeds.pure _ q).congr_cons hts (by simp [respond, Piece.respond, ht])
      next ht =>
      split
      next heof =>
        refine .reject hts ?_ (.inl ⟨_, rfl⟩)
        rw [heof]
        rfl
      next =>
        exact ((he q).bind fun arg r => heeds_separator
          (f := fun _ => arguments expr n >>= fun args => pure (arg :: args))
          (fun s => (ih s).bind fun _ s' => .pure _ s') r).congr_cons hts
          (Grammar.respond_args ht)

theorem heeds_call (he : ∀ p, Heeds [.expr] expr p) (p : Parser) :
    Heeds [.token .money, .token .lParen, .expr, .args, .token .rParen] (call expr) p :=
  (Heeds.expect (by decide) p).bind fun _ q =>
    (Heeds.expect (by decide) q).bind fun _ q =>
    (he q).bind fun _ q =>
    (Heeds.bounded fun n => heeds_arguments he n q).bind fun _ q =>
    (Heeds.expect (by decide) q).bind fun _ q => .pure _ q

theorem heeds_parameters (n : Nat) (p : Parser) : Heeds [.params] (parameters n) p := by
  induction n generalizing p with
  | zero => exact .exhausted p
  | succ n ih =>
      refine .peek_bind fun t ts q hq hts => ?_
      split
      next ht =>
        refine ((Heeds.advance hq (by simp [ht])).bind fun _ r =>
          (Heeds.expect (by decide) r).bind fun _ r =>
          (ih r).bind fun _ r => .pure _ r).congr_cons hts ?_
        simp [respond, Piece.respond, ht]
      next ht => exact (Heeds.pure _ q).congr_cons hts (by simp [respond, Piece.respond, ht])

theorem heeds_func (hb : ∀ p, Heeds [.block] block p) (p : Parser) :
    Heeds [.token .lBracket, .token .colon, .params, .token .colon, .block, .token .rBracket]
      (func block) p :=
  (Heeds.expect (by decide) p).bind fun _ q =>
    (Heeds.expect (by decide) q).bind fun _ q =>
    (Heeds.bounded fun n => heeds_parameters n q).bind fun _ q =>
    (Heeds.expect (by decide) q).bind fun _ q =>
    (hb q).bind fun _ q =>
    (Heeds.expect (by decide) q).bind fun _ q => .pure _ q

/-- What is not a sign begins an operand by its kind. -/
theorem heeds_primary (he : ∀ p, Heeds [.expr] expr p) (hb : ∀ p, Heeds [.block] block p)
    {p : Parser} (hp : p.ahead.1 = t :: ts) (hsign : UnaryOp.ofToken? t.kind = none) :
    Heeds [.unary] (primary expr block) p := by
  refine .peek_bind fun u us q hq hus => ?_
  obtain ⟨rfl, rfl⟩ : t = u ∧ ts = us := by
    rw [ahead_peek hq, hp] at hus
    exact List.cons.inj hus
  split
  next hl =>
    have hne : t.kind ≠ .eof := by
      intro h
      rw [h] at hl
      cases hl
    refine ((Heeds.advance hq hne).bind fun _ r => .pure _ r).congr_cons hus ?_
    simp [respond, Piece.respond, onUnary, hsign, hl]
  next hl =>
  split
  next ht =>
    refine ((Heeds.advance hq (by simp [ht])).bind fun _ r => (he r).bind fun _ r =>
      (Heeds.expect (by decide) r).bind fun _ r => .pure _ r).congr_cons hus ?_
    rw [ht]
    rfl
  next ht =>
    refine (heeds_func hb q).congr_cons hus ?_
    rw [ht]
    rfl
  next ht =>
    refine ((heeds_call he q).bind fun _ r => .pure _ r).congr_cons hus ?_
    rw [ht]
    rfl
  next ht =>
    refine .reject hus ?_ (.inl ⟨_, rfl⟩)
    rw [ht]
    rfl
  next hparen hbracket hmoney heof =>
    refine .reject hus ?_ (.inr ⟨heof, rfl⟩)
    rw [Grammar.respond_singleton]
    cases hk : t.kind <;> simp_all [Piece.respond, onUnary, isLiteral]

end Expr

/-! ### Statements -/

section Stmt

variable {expr : Parse Expr} {block : Parse Block} (he : ∀ p, Heeds [.expr] expr p)
  (hb : ∀ p, Heeds [.block] block p)

theorem heeds_partialMark (p : Parser) : Heeds [.mark] partialMark p := by
  unfold partialMark
  rw [eat_bind]
  refine .peek_bind fun t ts q hq hts => ?_
  split
  next ht =>
    refine ((Heeds.advance hq (by simp [ht])).bind fun _ r =>
      (Heeds.expect (by decide) r).bind fun _ r => .pure _ r).congr_cons hts ?_
    simp [respond, Piece.respond, ht]
  next ht => exact (Heeds.pure _ q).congr_cons hts (by simp [respond, Piece.respond, ht])

include he

theorem heeds_assign (p : Parser) :
    Heeds [.token .identifier, .token .is, .expr] (assign expr) p :=
  (Heeds.expect (by decide) p).bind fun _ q =>
    (Heeds.expect (by decide) q).bind fun _ q => (he q).bind fun _ q => .pure _ q

theorem heeds_define (p : Parser) :
    Heeds [.token .defWord, .token .identifier, .mark, .token .is, .expr] (define expr) p :=
  (Heeds.expect (by decide) p).bind fun _ q =>
    (Heeds.expect (by decide) q).bind fun _ q =>
    (heeds_partialMark q).bind fun _ q =>
    (Heeds.expect (by decide) q).bind fun _ q => (he q).bind fun _ q => .pure _ q

/-- A value is due unless the statement ends before it. -/
theorem heeds_optional (p : Parser) : Heeds [.optional] (optional expr) p := by
  refine .peek_bind fun t ts q hq hts => ?_
  split
  next ht =>
    refine ((he q).bind fun _ r => .pure _ r).congr_cons hts ?_
    simp [respond, Piece.respond, ht]
  next ht => exact (Heeds.pure _ q).congr_cons hts (by simp [respond, Piece.respond, ht])

theorem heeds_ret (p : Parser) : Heeds [.token .returnWord, .optional] (ret expr) p :=
  (Heeds.expect (by decide) p).bind fun _ q => (heeds_optional he q).bind fun _ q => .pure _ q

include hb

omit he in
theorem heeds_alternative (p : Parser) : Heeds [.alternative] (alternative block) p := by
  unfold alternative
  rw [eat_bind]
  refine .peek_bind fun t ts q hq hts => ?_
  split
  next ht =>
    refine ((Heeds.advance hq (by simp [ht])).bind fun _ r =>
      (hb r).bind fun _ r => .pure _ r).congr_cons hts ?_
    simp [respond, Piece.respond, ht]
  next ht => exact (Heeds.pure _ q).congr_cons hts (by simp [respond, Piece.respond, ht])

theorem heeds_branch (p : Parser) :
    Heeds [.token .whenWord, .expr, .block, .alternative] (branch expr block) p :=
  (Heeds.expect (by decide) p).bind fun _ q => (he q).bind fun _ q => (hb q).bind fun _ q =>
    (heeds_alternative hb q).bind fun _ q => .pure _ q

theorem heeds_loop (p : Parser) :
    Heeds [.token .whileWord, .expr, .block] (loop expr block) p :=
  (Heeds.expect (by decide) p).bind fun _ q => (he q).bind fun _ q => (hb q).bind fun _ q =>
    .pure _ q

/-- A statement and what follows it, where statements have not stopped. -/
theorem heeds_stmt_bind {f : Stmt → Parse α} (hf : ∀ s q, Heeds behind (f s) q) {p : Parser}
    (hp : p.ahead.1 = t :: ts) (hne : t.kind ≠ .eof)
    (hdue : respond due t.kind = (onStmt t.kind).before behind) :
    Heeds due (stmt expr block >>= f) p := by
  unfold stmt
  rw [Attempt.bind_assoc]
  refine .peek_bind fun u us q hq hus => ?_
  obtain ⟨rfl, rfl⟩ : t = u ∧ ts = us := by
    rw [ahead_peek hq, hp] at hus
    exact List.cons.inj hus
  split
  next ht =>
    refine ((heeds_assign he q).bind hf).congr_cons hus (hdue.trans ?_)
    rw [ht]
    rfl
  next ht =>
    refine ((heeds_define he q).bind hf).congr_cons hus (hdue.trans ?_)
    rw [ht]
    rfl
  next ht =>
    refine ((heeds_branch he hb q).bind hf).congr_cons hus (hdue.trans ?_)
    rw [ht]
    rfl
  next ht =>
    refine ((heeds_loop he hb q).bind hf).congr_cons hus (hdue.trans ?_)
    rw [ht]
    rfl
  next ht =>
    refine ((heeds_ret he q).bind hf).congr_cons hus (hdue.trans ?_)
    rw [ht]
    rfl
  next ht =>
    refine (((heeds_call he q).bind fun _ r => .pure _ r).bind hf).congr_cons hus
      (hdue.trans ?_)
    rw [ht]
    rfl
  next ht =>
    refine (((hb q).bind fun _ r => .pure _ r).bind hf).congr_cons hus (hdue.trans ?_)
    rw [ht]
    rfl
  next =>
    have hnone : onStmt t.kind = .refuses := by
      cases hk : t.kind <;> simp_all [onStmt]
    refine .reject hus (hdue.trans ?_) (.inr ⟨hne, rfl⟩)
    rw [hnone]
    rfl

/-- Statements are due until one of the kinds that end them, of which there are two in braces. -/
theorem heeds_stmts {stop : TokenKind → Bool} {nested : Bool}
    (hstop : ∀ kind, stop kind = stops nested kind) (n : Nat) (p : Parser) :
    Heeds [.stmts nested] (stmts stop (stmt expr block) n) p := by
  induction n generalizing p with
  | zero => exact .exhausted p
  | succ n ih =>
      refine .peek_bind fun t ts q hq hts => ?_
      split
      next ht =>
        refine ((Heeds.advance hq (by simp [ht])).bind fun _ r => ih r).congr_cons hts ?_
        simp [respond, Piece.respond, ht]
      next hsemi =>
      rw [hstop]
      split
      next ht =>
        exact (Heeds.pure _ q).congr_cons hts (by simp [respond, Piece.respond, hsemi, ht])
      next ht =>
        have hne : t.kind ≠ .eof := by
          intro h
          exact ht (by simp [h, stops])
        refine heeds_stmt_bind he hb (fun _ r => (ih r).bind fun _ r => .pure _ r) hts hne ?_
        rw [Grammar.respond_singleton, Piece.respond, if_neg hsemi, if_neg ht]
        rfl

theorem heeds_braced (p : Parser) : Heeds [.block] (braced (stmt expr block)) p := by
  have hstop : ∀ kind : TokenKind, (kind == .rBrace || kind == .eof) = stops true kind :=
    fun kind => Bool.or_comm ..
  refine ((Heeds.expect (by decide) p).bind fun _ q =>
    (Heeds.bounded fun n => heeds_stmts he hb hstop n q).bind fun _ q =>
    (Heeds.expect (by decide) q).bind fun _ q => .pure _ q).congr fun t _ => ?_
  by_cases ht : t.kind = .lBrace <;> simp [respond, Piece.respond, ht]

end Stmt

/-! ### Nesting -/

/-- **Expressions and blocks** keep to what is due at every depth. -/
theorem heeds_within (n : Nat) : (∀ p, Heeds [.expr] (exprWithin n) p) ∧
    ∀ p, Heeds [.block] (blockWithin n) p := by
  induction n with
  | zero => exact ⟨fun p => .exhausted p, fun p => .exhausted p⟩
  | succ n ih =>
      obtain ⟨he, hb⟩ := ih
      refine ⟨fun p => ?_, heeds_braced he hb⟩
      have hunary : ∀ q, Heeds [.unary] (unary (primary (exprWithin n) (blockWithin n))) q :=
        fun q => .bounded fun k =>
          heeds_signs (fun r t ts hr ht => heeds_primary he hb hr ht) k q
      exact (heeds_binary hunary p).congr fun t _ => Grammar.respond_expr [] t.kind

/-- **Programs** are read as the pieces of a program read them. -/
theorem heeds_program (p : Parser) : Heeds Grammar.start (bounded programWithin) p := by
  refine .bounded fun n => ?_
  obtain ⟨he, hb⟩ := heeds_within n
  have hstop : ∀ kind : TokenKind, (kind == .eof) = stops false kind :=
    fun kind => (Bool.or_false _).symm
  exact (heeds_stmts he hb hstop n p).bind fun _ q => .pure _ q

end Parser

open Grammar (Covers leaves respond)

/-! ### Sources -/

variable {source : Text} {options : LexerOptions} {tokens : List Token} {l : Lexer}
  {kinds : List TokenKind}

/-- A source that is no program has a token that an error is about. -/
theorem Program.stuck_of_parse {e : ParseError}
    (htokens : (Lexer.start source options).tokenize = (.ok tokens, l))
    (h : Program.parse source options = .error e) : Parser.Stuck Grammar.start tokens e := by
  have hlex := Program.parse_ne_lex htokens
  have hahead := Parser.tokenize_ahead (.start source options)
  rw [htokens] at hahead
  rw [h] at hlex
  unfold Program.parse Reading.source at h
  split at h
  next => cases h
  next e' q hq =>
    cases h
    rcases (Parser.heeds_program _).rejection (Parser.run_eq_error.mp hq) with
      ⟨lexical, rfl⟩ | hstuck
    · exact absurd rfl (hlex lexical)
    · rwa [hahead.1] at hstuck

/-- The kinds of a program are read by the pieces of a program. -/
theorem Program.covers_of_parse {prog : Program} {table : Intern.Table}
    (htokens : (Lexer.start source options).tokenize = (.ok tokens, l))
    (h : Program.parse source options = .ok (prog, table)) :
    ∃ kinds, tokens.map Token.kind = kinds ++ [.eof] ∧ Covers Grammar.start kinds := by
  have hahead := Parser.tokenize_ahead (.start source options)
  rw [htokens] at hahead
  unfold Program.parse Reading.source at h
  split at h
  next prog' q hq =>
    have hq := Parser.run_eq_ok.mp hq
    obtain ⟨⟨-, t, ts, hrest, ht⟩, -⟩ := (Parser.reads_program _).sound hq
    obtain ⟨rfl, -⟩ := Parser.ahead_of_head_eof hrest ht
    obtain ⟨taken, left, hsplit, hleaves, hpasses⟩ := (Parser.heeds_program _).answer hq
    rw [hahead.1, hrest] at hsplit
    refine ⟨taken.map Token.kind, by simp [hsplit, ht], left, hleaves, ?_⟩
    rw [Grammar.MayEnd, ← ht]
    exact hpasses t (by rw [hrest]; rfl)
  next => cases h

/-- Nothing that pieces read begins with what they refuse. -/
theorem Grammar.not_prefix_of_refuses {due left : List Piece} {before : List TokenKind}
    {kind : TokenKind} (hleaves : leaves due before = some left)
    (hrefuses : respond left kind = .refuses) (hcovers : Covers due kinds) :
    ¬ before ++ [kind] <+: kinds ++ [.eof] := by
  obtain ⟨left', hall, hend⟩ := hcovers
  rw [List.prefix_concat_iff]
  rintro (heq | ⟨more, rfl⟩)
  · obtain ⟨rfl, hkind⟩ := List.append_inj' heq rfl
    cases hkind
    cases hall.symm.trans hleaves
    rw [MayEnd, hrefuses] at hend
    cases hend
  · rw [List.append_assoc, leaves_concat hleaves, List.singleton_append,
      leaves_of_refuses hrefuses] at hall
    cases hall

/-- **Acceptance.**  A source is a program if the pieces of a program read its kinds. -/
theorem Program.parse_of_covers
    (htokens : (Lexer.start source options).tokenize = (.ok tokens, l))
    (hkinds : tokens.map Token.kind = kinds ++ [.eof]) (h : Covers Grammar.start kinds) :
    ∃ prog table, Program.parse source options = .ok (prog, table) := by
  cases hparse : Program.parse source options with
  | ok answer => exact ⟨answer.1, answer.2, rfl⟩
  | error e =>
      obtain ⟨taken, t, rest, left, rfl, hleaves, hrefuses, -⟩ :=
        Program.stuck_of_parse htokens hparse
      refine absurd ?_ (Grammar.not_prefix_of_refuses hleaves hrefuses h)
      rw [← hkinds]
      exact ⟨rest.map Token.kind, by simp⟩

/-! ### A source for every list of kinds -/

/-- A word of a kind. -/
def Word.ofKind (kind : TokenKind) : Word :=
  match kind with
  | .identifier => ⟨kind, some [97]⟩
  | .number => ⟨kind, some [48]⟩
  | .str => ⟨kind, some [stringMark]⟩
  | _ => ⟨kind, none⟩

theorem Word.kind_ofKind (kind : TokenKind) : (ofKind kind).kind = kind := by
  cases kind <;> rfl

/-- The word of a kind can be written with the default length of lexemes. -/
theorem Word.ofKind_wellFormed {kind : TokenKind} (h : kind ≠ .eof) :
    (ofKind kind).wellFormed 31 ∧ (ofKind kind).keywordFits 31 := by
  cases kind with
  | eof => exact absurd rfl h
  | _ => decide

theorem Word.lt_of_mem_spelling (kind : TokenKind) : ∀ b ∈ (ofKind kind).spelling, b < 128 := by
  have hall : (ofKind kind).spelling.all (· < 128) := by cases kind <;> decide
  exact fun b hb => of_decide_eq_true (List.all_eq_true.mp hall b hb)

theorem Spells.lt_of_mem {words : List Word} {text : Text} (h : Spells words text)
    (hwords : ∀ w ∈ words, ∀ b ∈ w.spelling, b < 128) : ∀ b ∈ text, b < 128 := by
  induction h with
  | nil => nofun
  | @cons w words sep rest hsep _ _ ih =>
      have hspace : ∀ b ∈ sep, b < 128 := by
        rcases hsep with rfl | rfl
        · nofun
        · exact List.forall_mem_singleton.mpr (by decide)
      intro b hb
      rcases List.mem_append.mp hb with hb | hb
      · exact hspace b hb
      rcases List.mem_append.mp hb with hb | hb
      · exact hwords w List.mem_cons_self b hb
      · exact ih (fun v hv => hwords v (List.mem_cons_of_mem _ hv)) b hb

/-- Any kinds but `eof` are those of the tokens of some source, which is written in ASCII. -/
theorem Lexer.exists_tokenize_kinds (h : .eof ∉ kinds) :
    ∃ source tokens l, (∀ b ∈ source, b < 128) ∧ (start source {}).tokenize = (.ok tokens, l) ∧
      tokens.map Token.kind = kinds ++ [.eof] := by
  have hspells := spells_render (kinds.map Word.ofKind)
  have hsplits : Splits 31 _ _ := hspells.splits (by
    intro w hw
    obtain ⟨kind, hkind, rfl⟩ := List.mem_map.mp hw
    exact Word.ofKind_wellFormed fun heof => h (heof ▸ hkind))
  have hascii := hspells.lt_of_mem (by
    intro w hw
    obtain ⟨kind, -, rfl⟩ := List.mem_map.mp hw
    exact Word.lt_of_mem_spelling kind)
  let l : Lexer := start (render (kinds.map Word.ofKind)) {}
  obtain ⟨tokens, l', htokens, -, hall⟩ :=
    tokenize_of_splits (l := l) hsplits (Intern.Table.hashed_empty _) rfl
  have hkinds : List.Forall₂ (· = ·) (tokens.map Token.kind)
      ((kinds.map Word.ofKind ++ [(⟨.eof, none⟩ : Word)]).map Word.kind) :=
    List.forall₂_map_left_iff.mpr (List.forall₂_map_right_iff.mpr (hall.imp fun _ _ ht => ht.1))
  rw [List.forall₂_eq_eq_eq] at hkinds
  refine ⟨_, tokens, l', hascii, htokens, ?_⟩
  simp [hkinds, Function.comp_def, Word.kind_ofKind]

/-- The source is a program, and its tokens are of these kinds. -/
def Program.Accepts (source : Text) (kinds : List TokenKind) : Prop :=
  ∃ prog table tokens l, Program.parse source {} = .ok (prog, table) ∧
    (Lexer.start source {}).tokenize = (.ok tokens, l) ∧ tokens.map Token.kind = kinds

/-- **Correct prefixes.**  If a source has tokens but is no program, then the error is about one of
them, and names its position and, if something else was expected, its kind.

* Some program begins with tokens of the kinds that stand before it.
* No program begins with tokens of the kinds up to and including it.
* If it is the end of the source, the error says what was expected there, and points at the end. -/
theorem Program.parse_blames_first {e : ParseError}
    (htokens : (Lexer.start source {}).tokenize = (.ok tokens, l))
    (h : Program.parse source {} = .error e) :
    ∃ k t, tokens[k]? = some t ∧
      ((∃ x, e = .expected x t.kind t.pos) ∨ e = .unrecognised t.pos) ∧
      (∃ legal kinds, (∀ b ∈ legal, b < 128) ∧ Program.Accepts legal kinds ∧
        (tokens.take k).map Token.kind <+: kinds) ∧
      (∀ legal kinds, Program.Accepts legal kinds →
        ¬ (tokens.take (k + 1)).map Token.kind <+: kinds) ∧
      (t.kind = .eof → (∃ x, e = .expected x .eof t.pos) ∧ e.location = .eof) := by
  obtain ⟨taken, t, rest, left, rfl, hleaves, hrefuses, hblames⟩ :=
    Program.stuck_of_parse htokens h
  refine ⟨taken.length, t, by simp, ?_, ?_, ?_, ?_⟩
  · exact hblames.imp_right And.right
  · obtain ⟨more, hcovers, heof⟩ := Grammar.exists_completion hleaves
    obtain ⟨legal, us, l', hascii, hus, hkinds⟩ := Lexer.exists_tokenize_kinds heof
    obtain ⟨prog, table, hparse⟩ := Program.parse_of_covers hus hkinds hcovers
    refine ⟨legal, _, hascii, ⟨prog, table, us, l', hparse, hus, rfl⟩, ?_⟩
    rw [hkinds, List.take_left, List.append_assoc]
    exact List.prefix_append _ _
  · rintro legal _ ⟨prog, table, us, l', hparse, hus, rfl⟩
    obtain ⟨kinds, hkinds, hcovers⟩ := Program.covers_of_parse hus hparse
    rw [hkinds, List.take_length_add_append, List.map_append]
    exact Grammar.not_prefix_of_refuses hleaves hrefuses hcovers
  · intro heof
    rcases hblames with ⟨x, rfl⟩ | ⟨hne, -⟩
    · rw [heof]
      exact ⟨⟨x, rfl⟩, rfl⟩
    · exact absurd heof hne

/-- A call that is broken off: the end of the source is blamed, and there is a program that goes on
from there. -/
theorem Program.parse_blames_first_eof : ∃ tokens,
    (Lexer.start (Text.ofString "$(") {}).tokenize.1 = .ok tokens ∧
    Program.parse (Text.ofString "$(") {} = .error (.expected .expression .eof ⟨1, 3⟩) ∧
    ∃ k t, tokens[k]? = some t ∧ t.kind = .eof ∧
      ∃ legal kinds, Program.Accepts legal kinds ∧ (tokens.take k).map Token.kind <+: kinds := by
  have hparse :
      Program.parse (Text.ofString "$(") {} = .error (.expected .expression .eof ⟨1, 3⟩) := by
    cbv
  have hok : (Lexer.start (Text.ofString "$(") {}).tokenize.1.isOk := by cbv
  rcases htokens : (Lexer.start (Text.ofString "$(") {}).tokenize with ⟨_ | tokens, l⟩
  · rw [htokens] at hok
    cases hok
  · obtain ⟨k, t, ht, hblamed, ⟨legal, kinds, -, haccepts, hbegins⟩, -⟩ :=
      Program.parse_blames_first htokens hparse
    refine ⟨tokens, rfl, hparse, k, t, ht, ?_, legal, kinds, haccepts, hbegins⟩
    rcases hblamed with ⟨x, hx⟩ | hx
    · exact (ParseError.expected.inj hx).2.1.symm
    · cases hx

end ScriptLang
