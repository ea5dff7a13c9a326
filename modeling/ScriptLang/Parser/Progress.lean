import ScriptLang.Parser.Grammar

/-!
# Parsing comes to an end

Every level of nesting and every round of a loop uses up a token, and a token uses up a byte of the
source.  So the bound that the unread source gives is never reached: from any state, also one left
by an error, the parsers of the grammar answer or reject.

`Settles d x p` says this of one parser and one state, together with what makes the induction go
through: `x` leaves no more to read than before, and at least `d` tokens less if it answers.

* `settles_within`: expressions and blocks settle within any depth that exceeds the tokens left, and
  take at least one token.
-/

namespace ScriptLang

/-- Asking for a token never leaves more to read, whether there is one or an error. -/
theorem Lexer.remaining_nextToken_le (l : Lexer) : l.nextToken.2.remaining ≤ l.remaining := by
  have h := Scanner.readers_forward.next l.scanner
  simp only [nextToken, lexeme, Attempt.bind_apply]
  generalize l.scanner.next = r at h
  obtain ⟨_ | x, s⟩ := r
  · exact h
  · simp only [internLexeme]
    split <;> exact h

namespace Parser

variable {α β : Type}

/-- From `p`, the parser `x` reaches no bound and leaves no more to read, and at least `d` tokens
less if it answers. -/
def Settles (d : Nat) (x : Parse α) (p : Parser) : Prop :=
  match x p with
  | (.ok _, p') => p'.remaining + d ≤ p.remaining
  | (.error (.error _), p') => p'.remaining ≤ p.remaining
  | (.error .exhausted, _) => False

namespace Settles

theorem pure (a : α) (p : Parser) : Settles 0 (Pure.pure a : Parse α) p := Nat.le_refl _

theorem reject {d : Nat} (e : ParseError) (p : Parser) :
    Settles d (Parser.reject e : Parse α) p := Nat.le_refl p.remaining

theorem mono {c d : Nat} {x : Parse α} {p : Parser} (h : Settles d x p) (hcd : c ≤ d) :
    Settles c x p := by
  unfold Settles at *
  split at h
  · omega
  · exact h
  · exact h

/-- **One after the other.**  What the first parser takes counts for both, so the second has only to
take the rest. -/
theorem bind {c d : Nat} {x : Parse α} {f : α → Parse β} {p : Parser} (hx : Settles c x p)
    (hf : ∀ a p', x p = (.ok a, p') → p'.remaining + c ≤ p.remaining → Settles (d - c) (f a) p') :
    Settles d (x >>= f) p := by
  unfold Settles at hx ⊢
  rw [Attempt.bind_apply]
  split at hx
  next a p' hxp =>
    have h := hf a p' hxp hx
    unfold Settles at h
    simp only [hxp]
    generalize f a p' = r at h
    obtain ⟨(_ | _) | _, q⟩ := r
    · exact Nat.le_trans h (Nat.le_of_add_right_le hx)
    · exact h
    · simp only at h ⊢
      omega
  next e p' hxp =>
    simp only [hxp]
    exact hx
  next => exact hx.elim

/-- Where a parser settles, no bound is reached. -/
theorem ne_exhausted {d : Nat} {x : Parse α} {p p' : Parser} (h : Settles d x p) :
    x p ≠ (.error .exhausted, p') := by
  intro hx
  unfold Settles at h
  rw [hx] at h
  exact h

/-- The bound that the unread source gives is one more than what is left. -/
theorem bounded {d : Nat} {x : Nat → Parse α} {p : Parser} (h : Settles d (x (p.remaining + 1)) p) :
    Settles d (Parser.bounded x) p := h

end Settles

/-! ### Looking at tokens and taking them -/

/-- A token that has been looked at is the lookahead. -/
theorem lookahead_peek {p p' : Parser} {t : Token} (h : peek p = (.ok t, p')) :
    p'.lookahead = some t := by
  unfold peek at h
  split at h
  · simp_all
  · simp only [pull] at h
    split at h
    · simp only [Prod.mk.injEq, Except.ok.injEq] at h
      obtain ⟨rfl, rfl⟩ := h
      rfl
    · simp at h

theorem peek_of_lookahead {p : Parser} {t : Token} (h : p.lookahead = some t) :
    peek p = (.ok t, p) := by
  simp [peek, h]

/-- Looking at a token may pull it from the lexer, which uses up a byte of the source for it. -/
theorem settles_peek (p : Parser) : Settles 0 peek p := by
  unfold Settles peek
  cases hp : p.lookahead with
  | some t => exact Nat.le_refl _
  | none =>
      have hle := p.lexer.remaining_nextToken_le
      simp only [pull]
      cases hn : p.lexer.nextToken with
      | mk r l =>
          rw [hn] at hle
          cases r with
          | error e => simpa [remaining, hp] using hle
          | ok t =>
              by_cases ht : t.kind = .eof
              · simpa [remaining, hp, ht] using hle
              · have hlt := Lexer.length_nextToken_lt hn ht
                simp [remaining, hp, ht]
                omega

theorem advance_of_lookahead {p : Parser} {t : Token} (h : p.lookahead = some t)
    (ht : t.kind ≠ .eof) : advance p = (.ok t, { p with lookahead := none }) := by
  simp only [advance, Attempt.bind_apply, peek_of_lookahead h, ht, if_false]
  rfl

/-- Only taking the lookahead makes less of what is left, and not at the end of the source. -/
theorem settles_advance {p : Parser} {t : Token} (h : p.lookahead = some t) (ht : t.kind ≠ .eof) :
    Settles 1 advance p := by
  unfold Settles
  rw [advance_of_lookahead h ht]
  simp [remaining, h, ht]

/-- Taking a token, be it the end of the source, never leaves more to read. -/
theorem settles_advance_any (p : Parser) : Settles 0 advance p := by
  refine (settles_peek p).bind fun t q _ _ => ?_
  split
  · exact Settles.pure _ q
  · unfold Settles
    simp [Attempt.bind_apply, drop, remaining]

theorem settles_at? (kind : TokenKind) (p : Parser) : Settles 0 (at? kind) p :=
  (settles_peek p).bind fun _ p' _ _ => Settles.pure _ p'

/-- A token that has to be there is taken, or else rejected. -/
theorem settles_expect {kind : TokenKind} (hk : kind ≠ .eof) (p : Parser) :
    Settles 1 (expect kind) p := by
  refine (settles_peek p).bind fun t p' hp _ => ?_
  split
  next h => exact settles_advance (lookahead_peek hp) (h ▸ hk)
  next => exact Settles.reject _ p'

theorem settles_expect_any (kind : TokenKind) (p : Parser) : Settles 0 (expect kind) p := by
  refine (settles_peek p).bind fun t q _ _ => ?_
  split
  · exact settles_advance_any q
  · exact Settles.reject _ q

theorem lookahead_at? {kind : TokenKind} {p p' : Parser} (h : at? kind p = (.ok true, p')) :
    ∃ t, p'.lookahead = some t ∧ t.kind = kind := by
  rw [at?, Attempt.bind_apply] at h
  split at h
  next t q hq =>
    simp only [Attempt.pure_apply, Prod.mk.injEq, Except.ok.injEq, beq_iff_eq] at h
    obtain ⟨ht, rfl⟩ := h
    exact ⟨t, lookahead_peek hq, ht⟩
  next => simp at h

theorem settles_eat {kind : TokenKind} (hk : kind ≠ .eof) (p : Parser) :
    Settles 0 (eat kind) p := by
  refine (settles_at? kind p).bind fun b p' hp _ => ?_
  split
  next hb =>
    obtain ⟨t, ht, rfl⟩ := lookahead_at? (hb ▸ hp)
    exact ((settles_advance ht hk).mono (Nat.zero_le 1)).bind fun _ q _ _ => Settles.pure _ q
  next => exact Settles.pure _ p'

/-! ### Binary expressions -/

/-- Every state with fewer than `m` tokens left settles `x`, and `x` takes a token. -/
def SettlesBelow (m : Nat) (x : Parse α) : Prop := ∀ p : Parser, p.remaining < m → Settles 1 x p

/-- Each turn of the loop takes an operator, so it ends within a bound over what is left. -/
theorem settles_operators {operand : Parse Expr} {m : Nat} (ho : SettlesBelow m operand) (n : Nat)
    (waiting : List Waiting) (rhs : Expr) (p : Parser) (hm : p.remaining < m)
    (hn : p.remaining < n) : Settles 0 (operators operand n waiting rhs) p := by
  induction n generalizing waiting rhs p with
  | zero => omega
  | succ n ih =>
      refine (settles_peek p).bind fun t p₁ h₁ le₁ => ?_
      split
      next => exact Settles.pure _ p₁
      next op hop =>
        have ht : t.kind ≠ .eof := by
          intro h
          rw [h] at hop
          simp [BinOp.ofToken?] at hop
        refine (settles_advance (lookahead_peek h₁) ht).bind fun _ p₂ _ le₂ => ?_
        dsimp only
        split
        next => exact Settles.reject _ p₂
        next =>
          refine (ho p₂ (by omega)).bind fun _ p₃ _ le₃ => ?_
          exact ih _ _ p₃ (by omega) (by omega)

theorem settlesBelow_binary {operand : Parse Expr} {m : Nat} (ho : SettlesBelow m operand) :
    SettlesBelow m (binary operand) := fun p hp =>
  (ho p hp).bind fun _ q _ le =>
    .bounded (settles_operators ho _ _ _ q (by omega) (Nat.lt_succ_self _))

/-! ### Operands -/

/-- Each sign is a token, so a run of signs ends within a bound over what is left. -/
theorem settles_signs {primary : Parse Expr} {m : Nat} (hp : SettlesBelow m primary) (n : Nat)
    (p : Parser) (hm : p.remaining < m) (hn : p.remaining < n) : Settles 1 (signs primary n) p := by
  induction n generalizing p with
  | zero => omega
  | succ n ih =>
      refine (settles_peek p).bind fun t p₁ h₁ le₁ => ?_
      split
      next op hop =>
        have ht : t.kind ≠ .eof := by
          intro h
          rw [h] at hop
          simp [UnaryOp.ofToken?] at hop
        refine (settles_advance (lookahead_peek h₁) ht).bind fun _ p₂ _ le₂ => ?_
        refine ((ih p₂ (by omega) (by omega)).mono (Nat.zero_le 1)).bind fun _ p₃ _ _ => ?_
        exact Settles.pure _ p₃
      next => exact hp p₁ (by omega)

theorem settlesBelow_unary {primary : Parse Expr} {m : Nat} (hp : SettlesBelow m primary) :
    SettlesBelow m (unary primary) := fun p hm =>
  .bounded (settles_signs hp _ p hm (Nat.lt_succ_self _))

theorem settles_separator (p : Parser) : Settles 0 separator p := by
  refine (settles_at? .rParen p).bind fun b q _ _ => ?_
  split
  · exact Settles.pure _ q
  · refine ((settles_expect (by decide) q).mono (Nat.zero_le 1)).bind fun _ r _ _ => ?_
    exact Settles.pure _ r

/-- Each argument takes a token, so the list ends within a bound over what is left. -/
theorem settles_arguments {expr : Parse Expr} {m : Nat} (he : SettlesBelow m expr) (n : Nat)
    (p : Parser) (hm : p.remaining < m) (hn : p.remaining < n) :
    Settles 0 (arguments expr n) p := by
  induction n generalizing p with
  | zero => omega
  | succ n ih =>
      refine (settles_peek p).bind fun t p₁ _ le₁ => ?_
      split
      · exact Settles.pure _ p₁
      split
      · exact Settles.reject _ p₁
      · refine (he p₁ (by omega)).bind fun _ p₂ _ le₂ => ?_
        refine (settles_separator p₂).bind fun _ p₃ _ le₃ => ?_
        refine (ih p₃ (by omega) (by omega)).bind fun _ p₄ _ _ => ?_
        exact Settles.pure _ p₄

/-- The expression called and the arguments stand behind two tokens, so they are read within
less. -/
theorem settles_call {expr : Parse Expr} {m : Nat} (he : SettlesBelow m expr) (p : Parser)
    (hm : p.remaining ≤ m) : Settles 1 (call expr) p := by
  refine (settles_expect (by decide) p).bind fun _ p₁ _ le₁ => ?_
  refine ((settles_expect (by decide) p₁).mono (Nat.zero_le 1)).bind fun _ p₂ _ le₂ => ?_
  refine ((he p₂ (by omega)).mono (Nat.zero_le 1)).bind fun _ p₃ _ le₃ => ?_
  refine (Settles.bounded
    (settles_arguments he _ p₃ (by omega) (Nat.lt_succ_self _))).bind fun _ p₄ _ le₄ => ?_
  refine ((settles_expect (by decide) p₄).mono (Nat.zero_le 1)).bind fun _ p₅ _ _ => ?_
  exact Settles.pure _ p₅

/-- Each parameter takes its name and its comma. -/
theorem settles_parameters (n : Nat) (p : Parser) (hn : p.remaining < n) :
    Settles 0 (parameters n) p := by
  induction n generalizing p with
  | zero => omega
  | succ n ih =>
      refine (settles_peek p).bind fun t p₁ h₁ le₁ => ?_
      split
      next ht =>
        have hne : t.kind ≠ .eof := by simp [ht]
        refine (settles_advance (lookahead_peek h₁) hne).bind fun _ p₂ _ le₂ => ?_
        refine ((settles_expect (by decide) p₂).mono (Nat.zero_le 1)).bind fun _ p₃ _ le₃ => ?_
        refine (ih p₃ (by omega)).bind fun _ p₄ _ _ => ?_
        exact Settles.pure _ p₄
      next => exact Settles.pure _ p₁

/-- The body of a function stands behind its brackets. -/
theorem settles_func {block : Parse Block} {m : Nat} (hb : SettlesBelow m block) (p : Parser)
    (hm : p.remaining ≤ m) : Settles 1 (func block) p := by
  refine (settles_expect (by decide) p).bind fun _ p₁ _ le₁ => ?_
  refine ((settles_expect (by decide) p₁).mono (Nat.zero_le 1)).bind fun _ p₂ _ le₂ => ?_
  refine (Settles.bounded (settles_parameters _ p₂ (Nat.lt_succ_self _))).bind fun _ p₃ _ le₃ => ?_
  refine ((settles_expect (by decide) p₃).mono (Nat.zero_le 1)).bind fun _ p₄ _ le₄ => ?_
  refine ((hb p₄ (by omega)).mono (Nat.zero_le 1)).bind fun _ p₅ _ le₅ => ?_
  refine ((settles_expect (by decide) p₅).mono (Nat.zero_le 1)).bind fun _ p₆ _ _ => ?_
  exact Settles.pure _ p₆

/-- **A level of nesting takes a token**: what is nested in an operand stands behind its first one.
So the bound is one more than for the expressions and blocks within. -/
theorem settlesBelow_primary {expr : Parse Expr} {block : Parse Block} {m : Nat}
    (he : SettlesBelow m expr) (hb : SettlesBelow m block) :
    SettlesBelow (m + 1) (primary expr block) := by
  intro p hp
  refine (settles_peek p).bind fun t p₁ h₁ le₁ => ?_
  split
  next hl =>
    have hne : t.kind ≠ .eof := by
      intro h
      simp [h, isLiteral] at hl
    refine (settles_advance (lookahead_peek h₁) hne).bind fun _ p₂ _ _ => ?_
    exact Settles.pure _ p₂
  next =>
    split
    next hk =>
      have hne : t.kind ≠ .eof := by simp [hk]
      refine (settles_advance (lookahead_peek h₁) hne).bind fun _ p₂ _ le₂ => ?_
      refine ((he p₂ (by omega)).mono (Nat.zero_le 1)).bind fun _ p₃ _ le₃ => ?_
      refine ((settles_expect (by decide) p₃).mono (Nat.zero_le 1)).bind fun _ p₄ _ _ => ?_
      exact Settles.pure _ p₄
    next => exact settles_func hb p₁ (by omega)
    next =>
      refine (settles_call he p₁ (by omega)).bind fun _ p₂ _ _ => ?_
      exact Settles.pure _ p₂
    next => exact Settles.reject _ p₁
    next => exact Settles.reject _ p₁

/-! ### Statements -/

theorem settles_assign {expr : Parse Expr} {m : Nat} (he : SettlesBelow m expr) (p : Parser)
    (hm : p.remaining ≤ m) : Settles 1 (assign expr) p := by
  refine (settles_expect (by decide) p).bind fun _ p₁ _ le₁ => ?_
  refine ((settles_expect (by decide) p₁).mono (Nat.zero_le 1)).bind fun _ p₂ _ le₂ => ?_
  refine ((he p₂ (by omega)).mono (Nat.zero_le 1)).bind fun _ p₃ _ _ => ?_
  exact Settles.pure _ p₃

theorem settles_partialMark (p : Parser) : Settles 0 partialMark p := by
  refine (settles_eat (by decide) p).bind fun b q _ _ => ?_
  split
  · refine ((settles_expect (by decide) q).mono (Nat.zero_le 1)).bind fun _ r _ _ => ?_
    exact Settles.pure _ r
  · exact Settles.pure _ q

theorem settles_define {expr : Parse Expr} {m : Nat} (he : SettlesBelow m expr) (p : Parser)
    (hm : p.remaining ≤ m) : Settles 1 (define expr) p := by
  refine (settles_expect (by decide) p).bind fun _ p₁ _ le₁ => ?_
  refine ((settles_expect (by decide) p₁).mono (Nat.zero_le 1)).bind fun _ p₂ _ le₂ => ?_
  refine (settles_partialMark p₂).bind fun _ p₃ _ le₃ => ?_
  refine ((settles_expect (by decide) p₃).mono (Nat.zero_le 1)).bind fun _ p₄ _ le₄ => ?_
  refine ((he p₄ (by omega)).mono (Nat.zero_le 1)).bind fun _ p₅ _ _ => ?_
  exact Settles.pure _ p₅

theorem settles_alternative {block : Parse Block} {m : Nat} (hb : SettlesBelow m block) (p : Parser)
    (hm : p.remaining < m) : Settles 0 (alternative block) p := by
  refine (settles_eat (by decide) p).bind fun b q _ le => ?_
  split
  · refine ((hb q (by omega)).mono (Nat.zero_le 1)).bind fun _ r _ _ => ?_
    exact Settles.pure _ r
  · exact Settles.pure _ q

theorem settles_branch {expr : Parse Expr} {block : Parse Block} {m : Nat}
    (he : SettlesBelow m expr) (hb : SettlesBelow m block) (p : Parser) (hm : p.remaining ≤ m) :
    Settles 1 (branch expr block) p := by
  refine (settles_expect (by decide) p).bind fun _ p₁ _ le₁ => ?_
  refine ((he p₁ (by omega)).mono (Nat.zero_le 1)).bind fun _ p₂ _ le₂ => ?_
  refine ((hb p₂ (by omega)).mono (Nat.zero_le 1)).bind fun _ p₃ _ le₃ => ?_
  refine (settles_alternative hb p₃ (by omega)).bind fun _ p₄ _ _ => ?_
  exact Settles.pure _ p₄

theorem settles_loop {expr : Parse Expr} {block : Parse Block} {m : Nat}
    (he : SettlesBelow m expr) (hb : SettlesBelow m block) (p : Parser) (hm : p.remaining ≤ m) :
    Settles 1 (loop expr block) p := by
  refine (settles_expect (by decide) p).bind fun _ p₁ _ le₁ => ?_
  refine ((he p₁ (by omega)).mono (Nat.zero_le 1)).bind fun _ p₂ _ le₂ => ?_
  refine ((hb p₂ (by omega)).mono (Nat.zero_le 1)).bind fun _ p₃ _ _ => ?_
  exact Settles.pure _ p₃

/-- A value that may be missing takes nothing where it is missing. -/
theorem settles_optional {expr : Parse Expr} {m : Nat} (he : SettlesBelow m expr) (p : Parser)
    (hm : p.remaining < m) : Settles 0 (optional expr) p := by
  refine (settles_peek p).bind fun t q _ le => ?_
  split
  · refine ((he q (by omega)).mono (Nat.zero_le 1)).bind fun _ r _ _ => ?_
    exact Settles.pure _ r
  · exact Settles.pure _ q

theorem settles_ret {expr : Parse Expr} {m : Nat} (he : SettlesBelow m expr) (p : Parser)
    (hm : p.remaining ≤ m) : Settles 1 (ret expr) p := by
  refine (settles_expect (by decide) p).bind fun _ p₁ _ le₁ => ?_
  refine (settles_optional he p₁ (by omega)).bind fun _ p₂ _ _ => ?_
  exact Settles.pure _ p₂

/-- A statement settles wherever its expressions and blocks do, and takes a token. -/
theorem settlesBelow_stmt {expr : Parse Expr} {block : Parse Block} {m : Nat}
    (he : SettlesBelow m expr) (hb : SettlesBelow m block) : SettlesBelow m (stmt expr block) := by
  intro p hp
  refine (settles_peek p).bind fun t p₁ _ le₁ => ?_
  split
  · exact settles_assign he p₁ (by omega)
  · exact settles_define he p₁ (by omega)
  · exact settles_branch he hb p₁ (by omega)
  · exact settles_loop he hb p₁ (by omega)
  · exact settles_ret he p₁ (by omega)
  · refine (settles_call he p₁ (by omega)).bind fun _ p₂ _ _ => ?_
    exact Settles.pure _ p₂
  · refine (hb p₁ (by omega)).bind fun _ p₂ _ _ => ?_
    exact Settles.pure _ p₂
  · exact Settles.reject _ p₁

/-- Each turn takes a semicolon or a statement, so the list ends within a bound over what is
left. -/
theorem settles_stmts {stmt : Parse Stmt} {m : Nat} (stop : TokenKind → Bool)
    (hs : SettlesBelow m stmt) (n : Nat) (p : Parser) (hm : p.remaining < m)
    (hn : p.remaining < n) : Settles 0 (stmts stop stmt n) p := by
  induction n generalizing p with
  | zero => omega
  | succ n ih =>
      refine (settles_peek p).bind fun t p₁ h₁ le₁ => ?_
      split
      next ht =>
        have hne : t.kind ≠ .eof := by simp [ht]
        refine (settles_advance (lookahead_peek h₁) hne).bind fun _ p₂ _ le₂ => ?_
        exact ih p₂ (by omega) (by omega)
      next =>
        split
        · exact Settles.pure _ p₁
        · refine (hs p₁ (by omega)).bind fun _ p₂ _ le₂ => ?_
          refine (ih p₂ (by omega) (by omega)).bind fun _ p₃ _ _ => ?_
          exact Settles.pure _ p₃

/-- **Braces are a level of nesting**: the statements of a block stand behind the first of them. -/
theorem settlesBelow_braced {stmt : Parse Stmt} {m : Nat} (hs : SettlesBelow m stmt) :
    SettlesBelow (m + 1) (braced stmt) := by
  intro p hp
  refine (settles_expect (by decide) p).bind fun _ p₁ _ le₁ => ?_
  refine (Settles.bounded
    (settles_stmts _ hs _ p₁ (by omega) (Nat.lt_succ_self _))).bind fun _ p₂ _ le₂ => ?_
  refine ((settles_expect (by decide) p₂).mono (Nat.zero_le 1)).bind fun _ p₃ _ _ => ?_
  exact Settles.pure _ p₃

/-! ### Nesting -/

/-- **Expressions and blocks settle** within any depth that exceeds the tokens left, and take at
least one.  The induction is on the depth, for both at once, since each may hold the other. -/
theorem settles_within (n : Nat) :
    SettlesBelow n (exprWithin n) ∧ SettlesBelow n (blockWithin n) := by
  induction n with
  | zero =>
      exact ⟨fun p hp => absurd hp (Nat.not_lt_zero _), fun p hp => absurd hp (Nat.not_lt_zero _)⟩
  | succ n ih =>
      obtain ⟨he, hb⟩ := ih
      exact ⟨settlesBelow_binary (settlesBelow_unary (settlesBelow_primary he hb)),
        settlesBelow_braced (settlesBelow_stmt he hb)⟩

end Parser

end ScriptLang
