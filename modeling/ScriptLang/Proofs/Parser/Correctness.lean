import ScriptLang.Proofs.Grammar
import ScriptLang.Proofs.Parser.Stream

/-!
# The parser reads its grammar

From a state with few enough tokens ahead, each parser of the grammar answers with the trees of the
derivations of those tokens, and with nothing else.  Every construct is one lemma `reads_…` that
takes its parts to read what they should, and the depth of nesting is tied up as for termination.

Where a loop stops or an optional part is missing depends on the next token, so these lemmas say
which token that is (`Next`).  At the end it always is the one the grammar has there.

* `reads_within`: expressions and blocks.
* `Reading.source_eq_ok_iff`: what is read up to the end of a source is derived from its tokens.
* **Acceptance** (`parse_eq_ok_iff`).  A source is accepted just when it can be split into tokens
  and these derive a program, and then that program is the answer.
-/

namespace ScriptLang

namespace Parser

open Grammar

variable {m : Nat} {expr operand : Parse Expr} {block : Parse Block}

/-- There is a next token, of a kind that `P` allows. -/
def Next (P : TokenKind → Prop) (ts : List Token) : Prop := ∃ t rest, ts = t :: rest ∧ P t.kind

@[simp] theorem next_cons {P : TokenKind → Prop} {t : Token} {ts : List Token} :
    Next P (t :: ts) ↔ P t.kind := by
  simp [Next]

/-! ### Binary expressions -/

/-- The loop over operators reads the rest of a binary expression: operators with their operands,
which it assembles on what waits already. -/
theorem reads_operators (ho : SettlesBelow m operand) (hr : ReadsBelow m UnaryAt operand) (n : Nat)
    {ws : List Waiting} (hw : Rising ws) (rhs : Expr) (p : Parser) (hm : p.remaining < m)
    (hn : p.remaining < n) :
    Reads (fun ts e rest => ∃ items, ItemsAt ts items rest ∧ e = assemble ws rhs items)
      (operators operand n ws rhs) p := by
  induction n generalizing ws rhs p with
  | zero => omega
  | succ n ih =>
      refine .peek_bind (fun e rest ⟨_, h, _⟩ => nomatch h) fun t ts q hq hts le => ?_
      split
      next hop =>
        refine (Reads.pure _ q).congr fun e rest => ?_
        rw [hts]
        constructor
        · rintro ⟨items, h, rfl⟩
          cases h with
          | nil => exact ⟨rfl, rfl⟩
          | cons ht => rw [hop] at ht; cases ht
        · rintro ⟨rfl, rfl⟩
          exact ⟨[], .nil hop, rfl⟩
      next op hop =>
        have hne := ne_eof_of_ofToken? hop
        -- The stack has room, so its own error never comes up.
        simp only [if_neg (hw.length_closeAbove op rhs)]
        refine .congr (.advance_bind hq hne fun u p₁ le₁ =>
          .bind (ho p₁ (by omega)) (hr p₁ (by omega)) fun e p₂ _ le₂ =>
          ih (hw.push op u.pos rhs) e p₂ (by omega) (by omega)) fun e rest => ?_
        rw [hts]
        constructor
        · rintro ⟨items, h, rfl⟩
          cases h with
          | nil ht => rw [hop] at ht; cases ht
          | cons ht he hi =>
              rw [hop] at ht
              cases ht
              exact ⟨_, _, rfl, _, _, he, _, hi, rfl⟩
        · rintro ⟨_, _, ⟨⟩, e', mid, he, items, hi, rfl⟩
          exact ⟨_, .cons hop he hi, rfl⟩

/-- A binary expression is an operand and the items behind it, whose assembly is their tree. -/
theorem readsBelow_binary (ho : SettlesBelow m operand) (hr : ReadsBelow m UnaryAt operand) :
    ReadsBelow m ExprAt (binary operand) := fun p hp => by
  refine .congr (.bind (ho p hp) (hr p hp) fun first q _ le => .bounded
    (reads_operators ho hr _ .nil first q (by omega) (Nat.lt_succ_self _))) fun e rest => ?_
  constructor
  · rintro ⟨hf, hi, ht⟩
    exact ⟨_, _, hf, _, hi, tree_iff.mp ht⟩
  · rintro ⟨first, mid, hf, items, hi, he⟩
    exact ⟨hf, hi, tree_iff.mpr he⟩

/-! ### Operands -/

/-- Signs are read up to an operand that begins with none, and stand around it in their order. -/
theorem reads_signs {primary : Parse Expr} (hs : SettlesBelow m primary)
    (hr : ReadsBelow m PrimaryAt primary) (n : Nat) (p : Parser) (hm : p.remaining < m)
    (hn : p.remaining < n) : Reads UnaryAt (signs primary n) p := by
  induction n generalizing p with
  | zero => omega
  | succ n ih =>
      refine .peek_bind (fun e rest h => ?_) fun t ts q hq hts le => ?_
      · obtain ⟨_, _, ⟨⟩, -⟩ := h.startsExpr
      split
      next op hop =>
        have hne : t.kind ≠ .eof := by
          intro h
          rw [h] at hop
          cases hop
        refine .congr (.advance_bind hq hne fun u p₁ le₁ =>
          .bind (settles_signs hs n p₁ (by omega) (by omega)) (ih p₁ (by omega) (by omega))
          fun e p₂ _ _ => .pure _ p₂) fun e rest => ?_
        rw [hts]
        constructor
        · intro h
          cases h with
          | sign ht he =>
              rw [hop] at ht
              cases ht
              exact ⟨_, _, rfl, _, _, he, rfl, rfl⟩
          -- No primary expression begins with a sign.
          | primary he =>
              obtain ⟨_, _, ⟨⟩, -, hnone⟩ := he.startsExpr
              rw [hop] at hnone
              cases hnone
        · rintro ⟨_, _, ⟨⟩, e', mid, he, rfl, rfl⟩
          exact .sign hop he
      next hop =>
        refine (hr q (by omega)).congr fun e rest => ?_
        rw [hts]
        constructor
        · intro h
          cases h with
          | sign ht => rw [hop] at ht; cases ht
          | primary he => exact he
        · exact .primary

theorem readsBelow_unary {primary : Parse Expr} (hs : SettlesBelow m primary)
    (hr : ReadsBelow m PrimaryAt primary) : ReadsBelow m UnaryAt (unary primary) := fun p hp =>
  .bounded (reads_signs hs hr _ p hp (Nat.lt_succ_self _))

/-- Behind an argument stands a comma, which is taken, or the end of the list, which is not. -/
theorem reads_separator (p : Parser) :
    Reads (fun ts _ rest => Next (· = .rParen) ts ∧ rest = ts ∨
      ∃ c, ts = c :: rest ∧ c.kind = .comma) separator p := by
  unfold separator
  rw [at?_bind]
  refine .peek_bind (by simp [Next]) fun t ts q _ hts _ => ?_
  by_cases ht : t.kind = .rParen
  · simp only [ht, beq_self_eq_true, if_true]
    exact (Reads.pure _ q).congr fun _ rest => by simp [hts, ht]
  · simp only [beq_eq_false_iff_ne.mpr ht, Bool.false_eq_true, if_false]
    refine .congr (.expect_bind (by decide) fun _ r _ => .pure _ r) fun _ rest => ?_
    simp [hts, ht]

/-- No argument begins with the closing parenthesis. -/
theorem eq_nil_of_argsAt {ts rest : List Token} {args : List Expr} (h : ArgsAt ts args rest)
    (hts : Next (· = .rParen) ts) : args = [] ∧ rest = ts := by
  obtain ⟨t, ts', rfl, ht⟩ := hts
  cases h with
  | nil => exact ⟨rfl, rfl⟩
  | last he | cons he =>
      obtain ⟨_, _, ⟨⟩, hs⟩ := he.startsExpr
      rw [ht] at hs
      cases hs

/-- Arguments are read up to the parenthesis behind them, be it behind a comma or not. -/
theorem reads_arguments (hs : SettlesBelow m expr) (hr : ReadsBelow m ExprAt expr) (n : Nat)
    (p : Parser) (hm : p.remaining < m) (hn : p.remaining < n) :
    Reads (fun ts args rest => ArgsAt ts args rest ∧ Next (· = .rParen) rest)
      (arguments expr n) p := by
  induction n generalizing p with
  | zero => omega
  | succ n ih =>
      refine .peek_bind (fun args rest ⟨h, hn⟩ => ?_) fun t ts q hq hts le => ?_
      · cases h with
        | nil => obtain ⟨_, _, ⟨⟩, -⟩ := hn
        | last he | cons he => obtain ⟨_, _, ⟨⟩, -⟩ := he.startsExpr
      split
      next ht =>
        refine (Reads.pure _ q).congr fun args rest => ?_
        rw [hts]
        constructor
        · exact fun h => eq_nil_of_argsAt h.1 (next_cons.mpr ht)
        · rintro ⟨rfl, rfl⟩
          exact ⟨.nil _, next_cons.mpr ht⟩
      next ht =>
      split
      next heof =>
        refine (Reads.reject _ q).congr fun args rest => ?_
        rw [hts, iff_false]
        rintro ⟨h, hn⟩
        cases h with
        | nil => exact ht (next_cons.mp hn)
        | last he | cons he =>
            obtain ⟨_, _, ⟨⟩, hs⟩ := he.startsExpr
            rw [heof] at hs
            cases hs
      next =>
        refine .congr (.bind (hs q (by omega)) (hr q (by omega)) fun e p₁ _ le₁ =>
          .bind (settles_separator p₁) (reads_separator p₁) fun _ p₂ _ le₂ =>
          .bind (settles_arguments hs n p₂ (by omega) (by omega)) (ih p₂ (by omega) (by omega))
          fun es p₃ _ _ => .pure _ p₃) fun args rest => ?_
        rw [hts]
        constructor
        · rintro ⟨h, hn⟩
          cases h with
          | nil => exact absurd (next_cons.mp hn) ht
          | last he => exact ⟨_, _, he, (), _, .inl ⟨hn, rfl⟩, _, _, ⟨.nil _, hn⟩, rfl, rfl⟩
          | cons he hc hes => exact ⟨_, _, he, (), _, .inr ⟨_, rfl, hc⟩, _, _, ⟨hes, hn⟩, rfl, rfl⟩
        -- Without a comma the list of further arguments was empty.
        · rintro ⟨e, mid, he, _, _, hsep, es, _, ⟨hes, hn⟩, rfl, rfl⟩
          rcases hsep with ⟨hp, rfl⟩ | ⟨c, rfl, hc⟩
          · obtain ⟨rfl, rfl⟩ := eq_nil_of_argsAt hes hp
            exact ⟨.last he, hn⟩
          · exact ⟨.cons he hc hes, hn⟩

theorem reads_call (hs : SettlesBelow m expr) (hr : ReadsBelow m ExprAt expr) (p : Parser)
    (hm : p.remaining ≤ m) : Reads CallAt (call expr) p := by
  refine .congr (.expect_bind (by decide) fun t p₁ le₁ =>
    .expect_bind (by decide) fun _ p₂ le₂ =>
    .bind (hs p₂ (by omega)) (hr p₂ (by omega)) fun callee p₃ _ le₃ =>
    .bind (.bounded (settles_arguments hs _ p₃ (by omega) (Nat.lt_succ_self _)))
      (.bounded (reads_arguments hs hr _ p₃ (by omega) (Nat.lt_succ_self _))) fun args p₄ _ _ =>
    .expect_bind (by decide) fun _ p₅ _ => .pure _ p₅) fun c rest => ?_
  generalize p.ahead.1 = ts
  constructor
  · rintro ⟨ht, hl, he, ha, hu⟩
    exact ⟨_, _, ⟨rfl, ht⟩, _, _, ⟨rfl, hl⟩, _, _, he, _, _, ⟨ha, next_cons.mpr hu⟩, _, _,
      ⟨rfl, hu⟩, rfl, rfl⟩
  · rintro ⟨t, _, ⟨rfl, ht⟩, l, _, ⟨rfl, hl⟩, callee, _, he, args, _, ⟨ha, -⟩, u, _, ⟨rfl, hu⟩,
      rfl, rfl⟩
    exact .mk ht hl he ha hu

/-- Parameters are names with commas, and are read until there is no name.  So what they leave
begins with none. -/
theorem reads_parameters (n : Nat) (p : Parser) (hn : p.remaining < n) :
    Reads (fun ts params rest => ParamsAt ts params rest ∧ Next (· ≠ .identifier) rest)
      (parameters n) p := by
  induction n generalizing p with
  | zero => omega
  | succ n ih =>
      refine .peek_bind (fun params rest ⟨h, hn⟩ => ?_) fun t ts q hq hts le => ?_
      · cases h
        obtain ⟨_, _, ⟨⟩, -⟩ := hn
      split
      next ht =>
        have hne : t.kind ≠ .eof := by simp [ht]
        refine .congr (.advance_bind hq hne fun u p₁ le₁ =>
          .expect_bind (by decide) fun _ p₂ le₂ =>
          .bind (settles_parameters n p₂ (by omega)) (ih p₂ (by omega)) fun params p₃ _ _ =>
          .pure _ p₃) fun params rest => ?_
        rw [hts]
        constructor
        · rintro ⟨h, hn⟩
          cases h with
          | nil => exact absurd ht (next_cons.mp hn)
          | cons _ hc hp => exact ⟨_, _, rfl, _, _, ⟨rfl, hc⟩, _, _, ⟨hp, hn⟩, rfl, rfl⟩
        · rintro ⟨_, _, ⟨⟩, c, mid, ⟨rfl, hc⟩, params', _, ⟨hp, hn⟩, rfl, rfl⟩
          exact ⟨.cons ht hc hp, hn⟩
      next ht =>
        refine (Reads.pure _ q).congr fun params rest => ?_
        rw [hts]
        constructor
        · rintro ⟨h, -⟩
          cases h with
          | nil => exact ⟨rfl, rfl⟩
          | cons ht' => exact absurd ht' ht
        · rintro ⟨rfl, rfl⟩
          exact ⟨.nil _, next_cons.mpr ht⟩

/-- A function is read if its opening bracket is the next token. -/
theorem reads_func (hs : SettlesBelow m block) (hr : ReadsBelow m BlockAt block) {p : Parser}
    (hm : p.remaining ≤ m) (hp : Next (· = .lBracket) p.ahead.1) :
    Reads PrimaryAt (func block) p := by
  refine .congr (.expect_bind (by decide) fun t p₁ le₁ =>
    .expect_bind (by decide) fun _ p₂ le₂ =>
    .bind (.bounded (settles_parameters _ p₂ (Nat.lt_succ_self _)))
      (.bounded (reads_parameters _ p₂ (Nat.lt_succ_self _))) fun params p₃ _ le₃ =>
    .expect_bind (by decide) fun _ p₄ le₄ =>
    .bind (hs p₄ (by omega)) (hr p₄ (by omega)) fun body p₅ _ le₅ =>
    .expect_bind (by decide) fun _ p₆ _ => .pure _ p₆) fun e rest => ?_
  obtain ⟨t, ts, hts, ht⟩ := hp
  rw [hts]
  constructor
  · intro h
    cases h with
    | literal hl => rw [ht] at hl; cases hl
    | parens hp => rw [ht] at hp; cases hp
    | func _ hc hp hd hb hu =>
        exact ⟨_, _, ⟨rfl, ht⟩, _, _, ⟨rfl, hc⟩, _, _, ⟨hp, next_cons.mpr (by simp [hd])⟩, _, _,
          ⟨rfl, hd⟩, _, _, hb, _, _, ⟨rfl, hu⟩, rfl, rfl⟩
    | call hc =>
        obtain ⟨_, _, ⟨⟩, hm⟩ := hc.kind
        rw [ht] at hm
        cases hm
  · rintro ⟨_, _, ⟨⟨⟩, -⟩, c, _, ⟨rfl, hc⟩, params, _, ⟨hp, -⟩, d, _, ⟨rfl, hd⟩, body, _, hb, u, _,
      ⟨rfl, hu⟩, rfl, rfl⟩
    exact .func ht hc hp hd hb hu

/-- **An operand is read by its first token**: a literal, or one of three that something is nested
behind.  Any other begins none, in the grammar as in the parser. -/
theorem readsBelow_primary (hse : SettlesBelow m expr) (hsb : SettlesBelow m block)
    (hre : ReadsBelow m ExprAt expr) (hrb : ReadsBelow m BlockAt block) :
    ReadsBelow (m + 1) PrimaryAt (primary expr block) := by
  intro p hp
  refine .peek_bind (fun e rest h => ?_) fun t ts q hq hts le => ?_
  · obtain ⟨_, _, ⟨⟩, -⟩ := h.startsExpr
  split
  next hl =>
    have hne : t.kind ≠ .eof := by
      intro h
      rw [h] at hl
      cases hl
    refine .congr (.advance_bind hq hne fun u p₁ _ => .pure _ p₁) fun e rest => ?_
    rw [hts]
    constructor
    · intro h
      cases h with
      | literal => exact ⟨_, _, rfl, rfl, rfl⟩
      | parens ht | func ht => rw [ht] at hl; cases hl
      | call hc =>
          obtain ⟨_, _, ⟨⟩, ht⟩ := hc.kind
          rw [ht] at hl
          cases hl
    · rintro ⟨_, _, ⟨⟩, rfl, rfl⟩
      exact .literal hl
  next hl =>
  split
  next ht =>
    have hne : t.kind ≠ .eof := by simp [ht]
    refine .congr (.advance_bind hq hne fun u p₁ le₁ =>
      .bind (hse p₁ (by omega)) (hre p₁ (by omega)) fun e p₂ _ _ =>
      .expect_bind (by decide) fun _ p₃ _ => .pure _ p₃) fun e rest => ?_
    rw [hts]
    constructor
    · intro h
      cases h with
      | literal hl' => exact absurd hl' hl
      | parens _ he hu => exact ⟨_, _, rfl, _, _, he, _, _, ⟨rfl, hu⟩, rfl, rfl⟩
      | func ht' => rw [ht] at ht'; cases ht'
      | call hc =>
          obtain ⟨_, _, ⟨⟩, ht'⟩ := hc.kind
          rw [ht] at ht'
          cases ht'
    · rintro ⟨_, _, ⟨⟩, e', _, he, u, _, ⟨rfl, hu⟩, rfl, rfl⟩
      exact .parens ht he hu
  next ht => exact reads_func hsb hrb (by omega) (by rw [hts]; exact next_cons.mpr ht)
  next ht =>
    refine .congr (.bind (settles_call hse q (by omega)) (reads_call hse hre q (by omega))
      fun c p₁ _ _ => .pure _ p₁) fun e rest => ?_
    rw [hts]
    constructor
    · intro h
      cases h with
      | literal hl' => exact absurd hl' hl
      | parens ht' | func ht' => rw [ht] at ht'; cases ht'
      | call hc => exact ⟨_, _, hc, rfl, rfl⟩
    · rintro ⟨c, _, hc, rfl, rfl⟩
      exact .call hc
  -- No other token begins a primary expression.
  all_goals
    refine (Reads.reject _ q).congr fun e rest => ?_
    rw [hts, iff_false]
    intro h
    cases h with
    | literal hl' => exact hl hl'
    | parens ht | func ht => simp_all
    | call hc =>
        obtain ⟨_, _, ⟨⟩, ht⟩ := hc.kind
        simp_all

/-! ### Statements -/

/-- The mark of a partial definition is two tokens or none, and a colon has to go on with the
second. -/
theorem reads_partialMark (p : Parser) :
    Reads (fun ts b rest =>
      (∃ c w, ts = c :: w :: rest ∧ c.kind = .colon ∧ w.kind = .partialWord ∧ b = true) ∨
        Next (· ≠ .colon) ts ∧ rest = ts ∧ b = false) partialMark p := by
  unfold partialMark
  rw [eat_bind]
  refine .peek_bind (by simp [Next]) fun t ts q hq hts _ => ?_
  split
  next ht =>
    have hne : t.kind ≠ .eof := by simp [ht]
    refine .congr (.advance_bind hq hne fun u p₁ _ =>
      .expect_bind (by decide) fun _ p₂ _ => .pure _ p₂) fun b rest => ?_
    rw [hts]
    constructor
    · rintro (⟨c, w, ⟨⟩, hc, hw, rfl⟩ | ⟨hn, -⟩)
      · exact ⟨_, _, rfl, _, _, ⟨rfl, hw⟩, rfl, rfl⟩
      · exact absurd ht (next_cons.mp hn)
    · rintro ⟨_, _, ⟨⟩, w, _, ⟨rfl, hw⟩, rfl, rfl⟩
      exact .inl ⟨_, _, rfl, ht, hw, rfl⟩
  next ht =>
    refine (Reads.pure _ q).congr fun b rest => ?_
    rw [hts]
    constructor
    · rintro (⟨c, w, ⟨⟩, hc, -⟩ | ⟨-, rfl, rfl⟩)
      · exact absurd hc ht
      · exact ⟨rfl, rfl⟩
    · rintro ⟨rfl, rfl⟩
      exact .inr ⟨next_cons.mpr ht, rfl, rfl⟩

/-- An alternative is read if a colon is there, and if there is none the branch ends. -/
theorem reads_alternative (hs : SettlesBelow m block) (hr : ReadsBelow m BlockAt block)
    (p : Parser) (hm : p.remaining < m) :
    Reads (fun ts b rest =>
      (∃ c mid b', ts = c :: mid ∧ c.kind = .colon ∧ BlockAt mid b' rest ∧ b = some b') ∨
        Next (· ≠ .colon) ts ∧ rest = ts ∧ b = none) (alternative block) p := by
  unfold alternative
  rw [eat_bind]
  refine .peek_bind (by simp [Next]) fun t ts q hq hts _ => ?_
  split
  next ht =>
    have hne : t.kind ≠ .eof := by simp [ht]
    refine .congr (.advance_bind hq hne fun u p₁ _ =>
      .bind (hs p₁ (by omega)) (hr p₁ (by omega)) fun _ p₂ _ _ => .pure _ p₂) fun b rest => ?_
    rw [hts]
    constructor
    · rintro (⟨c, _, b', ⟨⟩, hc, hb, rfl⟩ | ⟨hn, -⟩)
      · exact ⟨_, _, rfl, _, _, hb, rfl, rfl⟩
      · exact absurd ht (next_cons.mp hn)
    · rintro ⟨_, _, ⟨⟩, b', _, hb, rfl, rfl⟩
      exact .inl ⟨_, _, _, rfl, ht, hb, rfl⟩
  next ht =>
    refine (Reads.pure _ q).congr fun b rest => ?_
    rw [hts]
    constructor
    · rintro (⟨c, _, b', ⟨⟩, hc, -⟩ | ⟨-, rfl, rfl⟩)
      · exact absurd hc ht
      · exact ⟨rfl, rfl⟩
    · rintro ⟨rfl, rfl⟩
      exact .inr ⟨next_cons.mpr ht, rfl, rfl⟩

/-- A value behind `return` is read just if a token that begins expressions is there. -/
theorem reads_optional (hs : SettlesBelow m expr) (hr : ReadsBelow m ExprAt expr) (p : Parser)
    (hm : p.remaining < m) :
    Reads (fun ts v rest =>
      (∃ e, Next (startsExpr · = true) ts ∧ ExprAt ts e rest ∧ v = some e) ∨
        Next (startsExpr · = false) ts ∧ rest = ts ∧ v = none) (optional expr) p := by
  refine .peek_bind (by simp [Next]) fun t ts q hq hts _ => ?_
  split
  next ht =>
    refine .congr (.bind (hs q (by omega)) (hr q (by omega)) fun e r _ _ => .pure _ r)
      fun v rest => ?_
    rw [hts]
    constructor
    · rintro (⟨e, -, he, rfl⟩ | ⟨hn, -⟩)
      · exact ⟨_, _, he, rfl, rfl⟩
      · rw [next_cons, ht] at hn
        cases hn
    · rintro ⟨e, _, he, rfl, rfl⟩
      exact .inl ⟨_, next_cons.mpr ht, he, rfl⟩
  next ht =>
    refine (Reads.pure _ q).congr fun v rest => ?_
    rw [hts]
    constructor
    · rintro (⟨e, hn, -⟩ | ⟨-, rfl, rfl⟩)
      · exact absurd (next_cons.mp hn) ht
      · exact ⟨rfl, rfl⟩
    · rintro ⟨rfl, rfl⟩
      exact .inr ⟨next_cons.mpr (by simpa using ht), rfl, rfl⟩

/-- A choice without a second block is read as such only if no colon follows. -/
def Settled : Stmt → List Token → Prop
  | .branch _ _ none _, rest => Next (· ≠ .colon) rest
  | _, _ => True

section Stmt

variable (hse : SettlesBelow m expr) (hsb : SettlesBelow m block)
  (hre : ReadsBelow m ExprAt expr) (hrb : ReadsBelow m BlockAt block)
include hse hre

theorem reads_assign {p : Parser} (hm : p.remaining ≤ m)
    (hp : Next (· = .identifier) p.ahead.1) :
    Reads (fun ts s rest => StmtAt ts s rest ∧ Settled s rest) (assign expr) p := by
  refine .congr (.expect_bind (by decide) fun target p₁ le₁ =>
    .expect_bind (by decide) fun _ p₂ le₂ =>
    .bind (hse p₂ (by omega)) (hre p₂ (by omega)) fun e p₃ _ _ =>
    .pure _ p₃) fun s rest => ?_
  obtain ⟨t, ts, hts, ht⟩ := hp
  rw [hts]
  constructor
  · rintro ⟨h, -⟩
    obtain ⟨_, _, ⟨⟩, hk⟩ := h.kind
    rw [ht] at hk
    cases s with
    | assign =>
        cases h with
        | assign _ hi he => exact ⟨_, _, ⟨rfl, ht⟩, _, _, ⟨rfl, hi⟩, _, _, he, rfl, rfl⟩
    | _ => cases hk
  · rintro ⟨_, _, ⟨⟨⟩, -⟩, is, _, ⟨rfl, hi⟩, e, _, he, rfl, rfl⟩
    exact ⟨.assign ht hi he, trivial⟩

/-- A statement that begins with `def` is a definition, partial or not. -/
theorem reads_define {p : Parser} (hm : p.remaining ≤ m) (hp : Next (· = .defWord) p.ahead.1) :
    Reads (fun ts s rest => StmtAt ts s rest ∧ Settled s rest) (define expr) p := by
  refine .congr (.expect_bind (by decide) fun k p₁ le₁ =>
    .expect_bind (by decide) fun name p₂ le₂ =>
    .bind (settles_partialMark p₂) (reads_partialMark p₂) fun isPartial p₃ _ le₃ =>
    .expect_bind (by decide) fun _ p₄ le₄ =>
    .bind (hse p₄ (by omega)) (hre p₄ (by omega)) fun e p₅ _ _ =>
    .pure _ p₅) fun s rest => ?_
  obtain ⟨t, ts, hts, ht⟩ := hp
  rw [hts]
  constructor
  · rintro ⟨h, -⟩
    obtain ⟨_, _, ⟨⟩, hk⟩ := h.kind
    rw [ht] at hk
    cases s with
    | define =>
        cases h with
        | define _ hn hi he =>
            exact ⟨_, _, ⟨rfl, ht⟩, _, _, ⟨rfl, hn⟩, _, _,
              .inr ⟨next_cons.mpr (by simp [hi]), rfl, rfl⟩, _, _, ⟨rfl, hi⟩, _, _, he, rfl, rfl⟩
        | definePartial _ hn hc hw hi he =>
            exact ⟨_, _, ⟨rfl, ht⟩, _, _, ⟨rfl, hn⟩, _, _, .inl ⟨_, _, rfl, hc, hw, rfl⟩, _, _,
              ⟨rfl, hi⟩, _, _, he, rfl, rfl⟩
    | _ => cases hk
  · rintro ⟨_, _, ⟨⟨⟩, -⟩, name, _, ⟨rfl, hn⟩, _, _, hmark, is, _, ⟨rfl, hi⟩, e, _, he, rfl, rfl⟩
    rcases hmark with ⟨c, w, rfl, hc, hw, rfl⟩ | ⟨-, rfl, rfl⟩
    · exact ⟨.definePartial ht hn hc hw hi he, trivial⟩
    · exact ⟨.define ht hn hi he, trivial⟩

/-- A statement that begins with `return` has a value just if a token that begins expressions
follows. -/
theorem reads_ret {p : Parser} (hm : p.remaining ≤ m) (hp : Next (· = .returnWord) p.ahead.1) :
    Reads (fun ts s rest => StmtAt ts s rest ∧ Settled s rest) (ret expr) p := by
  refine .congr (.expect_bind (by decide) fun k p₁ le₁ =>
    .bind (settles_optional hse p₁ (by omega))
      (reads_optional hse hre p₁ (by omega)) fun v p₂ _ _ => .pure _ p₂) fun s rest => ?_
  obtain ⟨t, ts, hts, ht⟩ := hp
  rw [hts]
  constructor
  · rintro ⟨h, -⟩
    obtain ⟨_, _, ⟨⟩, hk⟩ := h.kind
    rw [ht] at hk
    cases s with
    | ret =>
        cases h with
        | ret _ hn =>
            exact ⟨_, _, ⟨rfl, ht⟩, _, _, .inr ⟨next_cons.mpr hn, rfl, rfl⟩, rfl, rfl⟩
        | retValue _ hn he =>
            exact ⟨_, _, ⟨rfl, ht⟩, _, _, .inl ⟨_, next_cons.mpr hn, he, rfl⟩, rfl, rfl⟩
    | _ => cases hk
  · rintro ⟨_, _, ⟨⟨⟩, -⟩, v, _, hv, rfl, rfl⟩
    rcases hv with ⟨e, ⟨u, us, rfl, hu⟩, he, rfl⟩ | ⟨⟨u, us, rfl, hu⟩, rfl, rfl⟩
    · exact ⟨.retValue ht hu he, trivial⟩
    · exact ⟨.ret ht hu, trivial⟩

include hsb hrb

/-- A statement that begins with `when` has a second block if a colon follows the first, so it is
settled. -/
theorem reads_branch {p : Parser} (hm : p.remaining ≤ m) (hp : Next (· = .whenWord) p.ahead.1) :
    Reads (fun ts s rest => StmtAt ts s rest ∧ Settled s rest) (branch expr block) p := by
  refine .congr (.expect_bind (by decide) fun k p₁ le₁ =>
    .bind (hse p₁ (by omega)) (hre p₁ (by omega)) fun e p₂ _ le₂ =>
    .bind (hsb p₂ (by omega)) (hrb p₂ (by omega)) fun b p₃ _ le₃ =>
    .bind (settles_alternative hsb p₃ (by omega)) (reads_alternative hsb hrb p₃ (by omega))
    fun b' p₄ _ _ => .pure _ p₄) fun s rest => ?_
  obtain ⟨t, ts, hts, ht⟩ := hp
  rw [hts]
  constructor
  · rintro ⟨h, hsettled⟩
    obtain ⟨_, _, ⟨⟩, hk⟩ := h.kind
    rw [ht] at hk
    cases s with
    | branch =>
        cases h with
        | branch _ he hb =>
            exact ⟨_, _, ⟨rfl, ht⟩, _, _, he, _, _, hb, _, _, .inr ⟨hsettled, rfl, rfl⟩, rfl, rfl⟩
        | branchElse _ he hb hc hb' =>
            exact ⟨_, _, ⟨rfl, ht⟩, _, _, he, _, _, hb, _, _, .inl ⟨_, _, _, rfl, hc, hb', rfl⟩,
              rfl, rfl⟩
    | _ => cases hk
  · rintro ⟨_, _, ⟨⟨⟩, -⟩, e, _, he, b, _, hb, _, _, halt, rfl, rfl⟩
    rcases halt with ⟨c, _, b', rfl, hc, hb', rfl⟩ | ⟨hn, rfl, rfl⟩
    · exact ⟨.branchElse ht he hb hc hb', trivial⟩
    · exact ⟨.branch ht he hb, hn⟩

theorem reads_loop {p : Parser} (hm : p.remaining ≤ m) (hp : Next (· = .whileWord) p.ahead.1) :
    Reads (fun ts s rest => StmtAt ts s rest ∧ Settled s rest) (loop expr block) p := by
  refine .congr (.expect_bind (by decide) fun k p₁ le₁ =>
    .bind (hse p₁ (by omega)) (hre p₁ (by omega)) fun e p₂ _ le₂ =>
    .bind (hsb p₂ (by omega)) (hrb p₂ (by omega)) fun b p₃ _ _ => .pure _ p₃) fun s rest => ?_
  obtain ⟨t, ts, hts, ht⟩ := hp
  rw [hts]
  constructor
  · rintro ⟨h, -⟩
    obtain ⟨_, _, ⟨⟩, hk⟩ := h.kind
    rw [ht] at hk
    cases s with
    | loop =>
        cases h with
        | loop _ he hb => exact ⟨_, _, ⟨rfl, ht⟩, _, _, he, _, _, hb, rfl, rfl⟩
    | _ => cases hk
  · rintro ⟨_, _, ⟨⟨⟩, -⟩, e, _, he, b, _, hb, rfl, rfl⟩
    exact ⟨.loop ht he hb, trivial⟩

/-- **A statement is read by its first token**, which tells the kinds of statements apart. -/
theorem readsBelow_stmt : ReadsBelow m (fun ts s rest => StmtAt ts s rest ∧ Settled s rest)
    (stmt expr block) := by
  intro p hp
  refine .peek_bind (fun s rest ⟨h, _⟩ => ?_) fun t ts q _ hts le => ?_
  · obtain ⟨_, _, ⟨⟩, -⟩ := h.kind
  have next : ∀ {kind}, t.kind = kind → Next (· = kind) q.ahead.1 := fun ht => by
    rw [hts]
    exact next_cons.mpr ht
  split
  next ht => exact reads_assign hse hre (by omega) (next ht)
  next ht => exact reads_define hse hre (by omega) (next ht)
  next ht => exact reads_branch hse hsb hre hrb (by omega) (next ht)
  next ht => exact reads_loop hse hsb hre hrb (by omega) (next ht)
  next ht => exact reads_ret hse hre (by omega) (next ht)
  next ht =>
    refine .congr (.bind (settles_call hse q (by omega)) (reads_call hse hre q (by omega))
      fun c p₁ _ _ => .pure _ p₁) fun s rest => ?_
    rw [hts]
    constructor
    · rintro ⟨h, -⟩
      obtain ⟨_, _, ⟨⟩, hk⟩ := h.kind
      rw [ht] at hk
      cases s with
      | call =>
          cases h with
          | call hc => exact ⟨_, _, hc, rfl, rfl⟩
      | _ => cases hk
    · rintro ⟨c, _, hc, rfl, rfl⟩
      exact ⟨.call hc, trivial⟩
  next ht =>
    refine .congr (.bind (hsb q (by omega)) (hrb q (by omega)) fun b p₁ _ _ => .pure _ p₁)
      fun s rest => ?_
    rw [hts]
    constructor
    · rintro ⟨h, -⟩
      obtain ⟨_, _, ⟨⟩, hk⟩ := h.kind
      rw [ht] at hk
      cases s with
      | block =>
          cases h with
          | block hb => exact ⟨_, _, hb, rfl, rfl⟩
      | _ => cases hk
    · rintro ⟨b, _, hb, rfl, rfl⟩
      exact ⟨.block hb, trivial⟩
  next =>
    refine (Reads.reject _ q).congr fun s rest => ?_
    rw [hts, iff_false]
    rintro ⟨h, -⟩
    obtain ⟨_, _, ⟨⟩, hk⟩ := h.kind
    cases s <;> contradiction

end Stmt

section Stmts

variable {stop : TokenKind → Bool} (hstop : ∀ kind, stop kind → kind = .rBrace ∨ kind = .eof)
include hstop

/-- A statement does not begin where statements stop. -/
theorem not_stop_firstKind (s : Stmt) : ¬ stop (firstKind s) := fun h => by
  rcases hstop _ h with h | h <;> cases s <;> cases h

/-- Between statements no colon can stand. -/
theorem settled_of_stmtsAt (s : Stmt) {ts rest : List Token} {body : List Stmt}
    (h : StmtsAt ts body rest) (hn : Next (stop ·) rest) : Settled s ts := by
  have hnext : Next (· ≠ .colon) ts := by
    cases h with
    | nil =>
        obtain ⟨t, ts', rfl, ht⟩ := hn
        refine next_cons.mpr fun hc => ?_
        rcases hstop _ ht with h | h <;> rw [hc] at h <;> cases h
    | semicolon ht => exact next_cons.mpr (by simp [ht])
    | @cons _ _ _ s' _ hs =>
        obtain ⟨t, ts', rfl, ht⟩ := hs.kind
        refine next_cons.mpr ?_
        rw [ht]
        cases s' <;> simp [firstKind]
  unfold Settled
  split
  · exact hnext
  · trivial

/-- Statements are read until a token stops them.  Each is settled, so no other way to cut them
reads the same tokens. -/
theorem reads_stmts {stmt : Parse Stmt} (hs : SettlesBelow m stmt)
    (hr : ReadsBelow m (fun ts s rest => StmtAt ts s rest ∧ Settled s rest) stmt) (n : Nat)
    (p : Parser) (hm : p.remaining < m) (hn : p.remaining < n) :
    Reads (fun ts body rest => StmtsAt ts body rest ∧ Next (stop ·) rest)
      (stmts stop stmt n) p := by
  induction n generalizing p with
  | zero => omega
  | succ n ih =>
      refine .peek_bind (fun body rest ⟨h, hnext⟩ => ?_) fun t ts q hq hts le => ?_
      · cases h with
        | nil => obtain ⟨_, _, ⟨⟩, -⟩ := hnext
        | cons hs => obtain ⟨_, _, ⟨⟩, -⟩ := hs.kind
      split
      next ht =>
        have hne : t.kind ≠ .eof := by simp [ht]
        refine .congr (.advance_bind hq hne fun u p₁ _ =>
          ih p₁ (by omega) (by omega)) fun body rest => ?_
        rw [hts]
        constructor
        · rintro ⟨h, hnext⟩
          cases h with
          | nil => rcases hstop _ (next_cons.mp hnext) with h | h <;> rw [ht] at h <;> cases h
          | semicolon _ h => exact ⟨_, _, rfl, h, hnext⟩
          | @cons _ _ _ s _ h =>
              obtain ⟨_, _, ⟨⟩, hk⟩ := h.kind
              rw [ht] at hk
              cases s <;> cases hk
        · rintro ⟨_, _, ⟨⟩, h, hnext⟩
          exact ⟨.semicolon ht h, hnext⟩
      next hsemi =>
      split
      next ht =>
        refine (Reads.pure _ q).congr fun body rest => ?_
        rw [hts]
        constructor
        · rintro ⟨h, -⟩
          cases h with
          | nil => exact ⟨rfl, rfl⟩
          | semicolon h => exact absurd h hsemi
          | @cons _ _ _ s _ h =>
              obtain ⟨_, _, ⟨⟩, hk⟩ := h.kind
              exact absurd (hk ▸ ht) (not_stop_firstKind hstop s)
        · rintro ⟨rfl, rfl⟩
          exact ⟨.nil _, next_cons.mpr ht⟩
      next ht =>
        refine .congr (.bind (hs q (by omega)) (hr q (by omega)) fun s p₁ _ le₁ =>
          .bind (settles_stmts stop hs n p₁ (by omega) (by omega)) (ih p₁ (by omega) (by omega))
          fun body p₂ _ _ => .pure _ p₂) fun body rest => ?_
        rw [hts]
        constructor
        · rintro ⟨h, hnext⟩
          cases h with
          | nil => exact absurd (next_cons.mp hnext) ht
          | semicolon h => exact absurd h hsemi
          | cons h hb =>
              exact ⟨_, _, ⟨h, settled_of_stmtsAt hstop _ hb hnext⟩, _, _, ⟨hb, hnext⟩, rfl, rfl⟩
        · rintro ⟨s, _, ⟨h, -⟩, body', _, ⟨hb, hnext⟩, rfl, rfl⟩
          exact ⟨.cons h hb, hnext⟩

end Stmts

/-- A block is read from brace to brace, and the closing one stops its statements. -/
theorem readsBelow_braced {stmt : Parse Stmt} (hs : SettlesBelow m stmt)
    (hr : ReadsBelow m (fun ts s rest => StmtAt ts s rest ∧ Settled s rest) stmt) :
    ReadsBelow (m + 1) BlockAt (braced stmt) := by
  intro p hp
  have hstop : ∀ kind : TokenKind, (kind == .rBrace || kind == .eof) = true →
      kind = .rBrace ∨ kind = .eof := fun kind h => by simpa using h
  refine .congr (.expect_bind (by decide) fun t p₁ le₁ =>
    .bind (.bounded (settles_stmts _ hs _ p₁ (by omega) (Nat.lt_succ_self _)))
      (.bounded (reads_stmts hstop hs hr _ p₁ (by omega) (Nat.lt_succ_self _))) fun body p₂ _ _ =>
    .expect_bind (by decide) fun _ p₃ _ => .pure _ p₃) fun b rest => ?_
  generalize p.ahead.1 = ts
  constructor
  · rintro ⟨ht, hb, hu⟩
    exact ⟨_, _, ⟨rfl, ht⟩, _, _, ⟨hb, next_cons.mpr (by simp [hu])⟩, _, _, ⟨rfl, hu⟩, rfl, rfl⟩
  · rintro ⟨t, _, ⟨rfl, ht⟩, body, _, ⟨hb, -⟩, u, _, ⟨rfl, hu⟩, rfl, rfl⟩
    exact .mk ht hb hu

/-! ### Nesting -/

/-- Within any depth that exceeds the tokens left, expressions and blocks are read as the grammar
derives them. -/
theorem reads_within (n : Nat) :
    ReadsBelow n ExprAt (exprWithin n) ∧ ReadsBelow n BlockAt (blockWithin n) := by
  induction n with
  | zero =>
      exact ⟨fun p hp => absurd hp (Nat.not_lt_zero _), fun p hp => absurd hp (Nat.not_lt_zero _)⟩
  | succ n ih =>
      obtain ⟨hse, hsb⟩ := settles_within n
      obtain ⟨hre, hrb⟩ := ih
      have hprimary := settlesBelow_primary hse hsb
      exact ⟨readsBelow_binary (settlesBelow_unary hprimary)
          (readsBelow_unary hprimary (readsBelow_primary hse hsb hre hrb)),
        readsBelow_braced (settlesBelow_stmt hse hsb) (readsBelow_stmt hse hsb hre hrb)⟩

theorem reads_expr (p : Parser) : Reads ExprAt (bounded exprWithin) p :=
  .bounded ((reads_within _).1 p (Nat.lt_succ_self _))

theorem reads_block (p : Parser) : Reads BlockAt (bounded blockWithin) p :=
  .bounded ((reads_within _).2 p (Nat.lt_succ_self _))

/-- Only the end of the source stops a program. -/
theorem reads_program (p : Parser) :
    Reads (fun ts prog rest => StmtsAt ts prog.stmts rest ∧ Next (· = .eof) rest)
      (bounded programWithin) p := by
  have hstop : ∀ kind : TokenKind, (kind == .eof) = true → kind = .rBrace ∨ kind = .eof :=
    fun kind h => .inr (by simpa using h)
  have hs := settlesBelow_stmtWithin (p.remaining + 1)
  have hr := readsBelow_stmt (settles_within (p.remaining + 1)).1 (settles_within _).2
    (reads_within _).1 (reads_within _).2
  refine .bounded (.congr (.bind
    (settles_stmts _ hs _ p (Nat.lt_succ_self _) (Nat.lt_succ_self _))
    (reads_stmts hstop hs hr _ p (Nat.lt_succ_self _) (Nat.lt_succ_self _)) fun body q _ _ =>
    .pure _ q) fun prog rest => ?_)
  simp only [beq_iff_eq]
  constructor
  · exact fun h => ⟨_, _, h, rfl, rfl⟩
  · rintro ⟨body, _, h, rfl, rfl⟩
    exact h

/-! ### Whole sources -/

/-- The end of the source is not used up. -/
theorem reads_end (p : Parser) :
    Reads (fun ts t rest => rest = ts ∧ ts.head? = some t ∧ t.kind = .eof) (expect .eof) p := by
  refine .peek_bind (by simp) fun t ts q hp hts _ => ?_
  split
  next ht =>
    have hadvance : advance q = (.ok t, q) := by
      rw [advance, Attempt.bind_apply, peek_of_lookahead (lookahead_peek hp)]
      exact congrFun (if_pos ht) q
    constructor
    · intro u r hr
      cases hadvance.symm.trans hr
      rw [hts]
      exact ⟨⟨rfl, rfl, ht⟩, rfl⟩
    · rintro u rest ⟨rfl, hhead, -⟩
      rw [hts] at hhead
      cases hhead
      exact ⟨q, hadvance, rfl⟩
  next ht =>
    refine (Reads.reject _ q).congr fun u rest => ?_
    rw [hts, iff_false]
    rintro ⟨-, ⟨⟩, hu⟩
    exact ht hu

variable {α : Type} {R : List Token → α → List Token → Prop}

/-- Reading up to the end of the source is reading, if the end is what comes next. -/
theorem reads_only {x : Parse α} {p : Parser} (hs : Settles 0 x p) (hx : Reads R x p) :
    Reads (fun ts a rest => R ts a rest ∧ Next (· = .eof) rest)
      (x >>= fun a => expect .eof >>= fun _ => pure a) p := by
  refine .congr (.bind hs hx fun a q _ _ => .bind (settles_expect_any _ q) (reads_end q)
    fun _ r _ _ => .pure a r) fun a rest => ?_
  constructor
  · rintro ⟨h, t, more, rfl, ht⟩
    exact ⟨a, _, h, t, _, ⟨rfl, rfl, ht⟩, rfl, rfl⟩
  · rintro ⟨a, mid, h, t, _, ⟨rfl, hhead, ht⟩, rfl, rfl⟩
    obtain ⟨more, rfl⟩ := List.head?_eq_some_iff.mp hhead
    exact ⟨h, next_cons.mpr ht⟩

end Parser

/-- **What is read up to the end of a source** is what the tokens of the source derive before the
last of them. -/
theorem Reading.source_eq_ok_iff {α : Type} {R : List Token → α → List Token → Prop}
    {x : Reading α} {y : Parse α} (hxy : ∀ {p a q}, x p = (.ok a, q) ↔ y p = (.ok a, q))
    (hy : ∀ p, Parser.Reads (fun ts a rest => R ts a rest ∧ Parser.Next (· = .eof) rest) y p)
    (hR : ∀ {ts a rest}, R ts a rest → rest <:+ ts) {source : Text} {options : LexerOptions}
    {a : α} {table : Intern.Table} :
    x.source source options = .ok (a, table) ↔
      ∃ tokens lexer t, (Lexer.start source options).tokenize = (.ok tokens, lexer) ∧
        lexer.table = table ∧ t.kind = .eof ∧ R tokens a [t] := by
  have htok := Parser.tokenize_ahead (.start source options)
  constructor
  · intro h
    unfold Reading.source at h
    split at h
    next a' q hq =>
      cases h
      obtain ⟨⟨hr, t, ts, hrest, ht⟩, hend⟩ := (hy _).sound (hxy.mp hq)
      obtain ⟨rfl, htable⟩ := Parser.ahead_of_head_eof hrest ht
      rw [hrest] at hr
      generalize (Lexer.start source options).tokenize = r at htok
      obtain ⟨_ | tokens, lexer⟩ := r
      -- A lexical error would come before the end of the source that was read.
      · exact absurd ht (htok t ((hR hr).subset (List.mem_singleton_self t)))
      · obtain ⟨rfl, rfl⟩ := htok
        exact ⟨_, _, t, rfl, by rw [← hend, htable], ht, hr⟩
    next => cases h
  · rintro ⟨tokens, lexer, t, htokens, rfl, ht, hr⟩
    rw [htokens] at htok
    obtain ⟨rfl, rfl⟩ := htok
    obtain ⟨q, hq, hend⟩ := (hy _).complete ⟨hr, Parser.next_cons.mpr ht⟩
    have htable := (Parser.ahead_of_head_eof (congrArg Prod.fst hend) ht).2
    rw [hend] at htable
    unfold Reading.source
    rw [hxy.mpr hq]
    simp [← htable]

/-- A source is parsed as a program just if its tokens are the statements of the program and one
`eof`, in the form of the grammar that goes by what is left. -/
theorem Program.parse_eq_ok_iff_stmtsAt {source : Text} {options : LexerOptions} {prog : Program}
    {table : Intern.Table} :
    Program.parse source options = .ok (prog, table) ↔
      ∃ tokens lexer t, (Lexer.start source options).tokenize = (.ok tokens, lexer) ∧
        lexer.table = table ∧ t.kind = .eof ∧ Grammar.StmtsAt tokens prog.stmts [t] :=
  Reading.source_eq_ok_iff Parser.run_eq_ok Parser.reads_program Grammar.StmtsAt.suffix

/-- What is answered is derived from the tokens of the source. -/
theorem Program.programAt_of_parse {source : Text} {options : LexerOptions} {prog : Program}
    {table : Intern.Table} (h : Program.parse source options = .ok (prog, table)) :
    ∃ tokens lexer, (Lexer.start source options).tokenize = (.ok tokens, lexer) ∧
      lexer.table = table ∧ Grammar.ProgramAt tokens prog := by
  obtain ⟨tokens, lexer, t, htokens, htable, ht, hs⟩ := parse_eq_ok_iff_stmtsAt.mp h
  exact ⟨tokens, lexer, htokens, htable, Grammar.programAt_iff.mpr ⟨t, ht, hs⟩⟩

/-- What the tokens of the source derive is answered. -/
theorem Program.parse_of_programAt {source : Text} {options : LexerOptions} {prog : Program}
    {tokens : List Token} {lexer : Lexer}
    (htokens : (Lexer.start source options).tokenize = (.ok tokens, lexer))
    (h : Grammar.ProgramAt tokens prog) :
    Program.parse source options = .ok (prog, lexer.table) := by
  obtain ⟨t, ht, hs⟩ := Grammar.programAt_iff.mp h
  exact parse_eq_ok_iff_stmtsAt.mpr ⟨tokens, lexer, t, htokens, rfl, ht, hs⟩

/-- A source is a block just when its tokens derive one and nothing follows it. -/
theorem Block.parse_eq_ok_iff_blockAt {source : Text} {options : LexerOptions} {b : Block}
    {table : Intern.Table} :
    Block.parse source options = .ok (b, table) ↔
      ∃ tokens lexer t, (Lexer.start source options).tokenize = (.ok tokens, lexer) ∧
        lexer.table = table ∧ t.kind = .eof ∧ Grammar.BlockAt tokens b [t] := by
  refine Reading.source_eq_ok_iff ?_
    (fun p => Parser.reads_only (Parser.settles_block p) (Parser.reads_block p))
    Grammar.BlockAt.suffix
  intro p b q
  simp only [Reading.only, Parser.parseBlock, Parser.parseEnd, Attempt.bind_eq_ok_iff,
    Parser.run_eq_ok, Attempt.pure_apply, Prod.mk.injEq, Except.ok.injEq]

/-- **Acceptance.**  A source is a program just when it has tokens and these derive one: the answer
is the derived program, over the texts of the tokens. -/
theorem Program.parse_eq_ok_iff (source : Text) (options : LexerOptions) (prog : Program)
    (table : Intern.Table) :
    Program.parse source options = .ok (prog, table) ↔
      ∃ tokens lexer, (Lexer.start source options).tokenize = (.ok tokens, lexer) ∧
        lexer.table = table ∧ Grammar.ProgramAt tokens prog := by
  constructor
  · exact programAt_of_parse
  · rintro ⟨tokens, lexer, htokens, rfl, h⟩
    exact parse_of_programAt htokens h

end ScriptLang
