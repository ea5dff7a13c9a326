import ScriptLang.Parser
import ScriptLang.Proofs.Lexer

/-!
# The tokens ahead

`ahead p` is all that a parser can still look at: the tokens up to the end of the source or up to a
lexical error, and the lexer after them.  Looking at a token changes nothing ahead, and taking one
leaves the tail.

`Reads R x p` says which answers `x` gives from `p`, in terms of the tokens ahead and those left:
just the answers that `R` allows.  It is an equivalence, so what is put together from parsers that
read just what they should reads just what it should (`Reads.bind`).

* `tokenize_eq_ok`: the tokens ahead of a source are those that `tokenize` gives.
-/

namespace ScriptLang.Parser

variable {α β : Type}

/-- The token that was looked at leaves less to read once it is gone. -/
theorem remaining_peek {p q : Parser} {t : Token} (h : peek p = (.ok t, q)) (ht : t.kind ≠ .eof) :
    Parser.remaining { q with lookahead := none } < p.remaining := by
  have hp := settles_peek p
  have hq := settles_advance (lookahead_peek h) ht
  unfold Settles at hp hq
  rw [h] at hp
  rw [advance_of_lookahead (lookahead_peek h) ht] at hq
  dsimp only at hp hq
  omega

/-- The tokens up to the end of the source or an error, and the lexer after the last of them. -/
def ahead (p : Parser) : List Token × Lexer :=
  match _h : peek p with
  | (.error _, q) => ([], q.lexer)
  | (.ok t, q) =>
    if _ht : t.kind = .eof then ([t], q.lexer)
    else
      let rest := ahead { q with lookahead := none }
      (t :: rest.1, rest.2)
termination_by p.remaining
decreasing_by exact remaining_peek _h _ht

theorem ahead_of_error {p q : Parser} {e : Failure} (h : peek p = (.error e, q)) :
    p.ahead = ([], q.lexer) := by
  rw [ahead]
  split
  next h' => rw [h] at h'; cases h'; rfl
  next h' => rw [h] at h'; cases h'

theorem ahead_of_eof {p q : Parser} {t : Token} (h : peek p = (.ok t, q)) (ht : t.kind = .eof) :
    p.ahead = ([t], q.lexer) := by
  rw [ahead]
  split
  next h' => rw [h] at h'; cases h'
  next h' => rw [h] at h'; cases h'; rw [dif_pos ht]

theorem ahead_of_ne_eof {p q : Parser} {t : Token} (h : peek p = (.ok t, q)) (ht : t.kind ≠ .eof) :
    p.ahead = (t :: (ahead { q with lookahead := none }).1,
      (ahead { q with lookahead := none }).2) := by
  rw [ahead]
  split
  next h' => rw [h] at h'; cases h'
  next h' => rw [h] at h'; cases h'; rw [dif_neg ht]

/-- Looking at a token changes nothing ahead. -/
theorem ahead_peek {p q : Parser} {t : Token} (h : peek p = (.ok t, q)) : q.ahead = p.ahead := by
  have hq := peek_of_lookahead (lookahead_peek h)
  by_cases ht : t.kind = .eof
  · rw [ahead_of_eof h ht, ahead_of_eof hq ht]
  · rw [ahead_of_ne_eof h ht, ahead_of_ne_eof hq ht]

/-- The token that is looked at is the first of those ahead. -/
theorem head?_ahead {p q : Parser} {t : Token} (h : peek p = (.ok t, q)) :
    p.ahead.1.head? = some t := by
  by_cases ht : t.kind = .eof
  · rw [ahead_of_eof h ht]; rfl
  · rw [ahead_of_ne_eof h ht]; rfl

/-- Nothing stands behind the end of the source, and it adds no text. -/
theorem ahead_of_head_eof {p : Parser} {t : Token} {ts : List Token} (h : p.ahead.1 = t :: ts)
    (ht : t.kind = .eof) : ts = [] ∧ p.ahead.2.table = p.lexer.table := by
  cases hp : peek p with
  | mk r q =>
      cases r with
      | error e =>
          rw [ahead_of_error hp] at h
          cases h
      | ok u =>
          have hu : u = t := by
            have hhead := head?_ahead hp
            rw [h] at hhead
            exact (Option.some.inj hhead).symm
          subst hu
          rw [ahead_of_eof hp ht] at h ⊢
          refine ⟨(List.cons.inj h).2.symm, ?_⟩
          -- A token that was looked at before is in the table already.
          unfold peek at hp
          split at hp
          · cases hp
            rfl
          · unfold pull at hp
            cases hl : p.lexer.nextToken with
            | mk r l =>
                rw [hl] at hp
                cases r with
                | error e => cases hp
                | ok v =>
                    cases hp
                    exact Lexer.table_of_nextToken_eof hl ht

/-! ### Reading what a relation allows -/

/-- From `p`, the answers of `x` are those that `R` allows between the tokens ahead and those
left. -/
structure Reads (R : List Token → α → List Token → Prop) (x : Parse α) (p : Parser) : Prop where
  sound : ∀ {a q}, x p = (.ok a, q) → R p.ahead.1 a q.ahead.1 ∧ q.ahead.2 = p.ahead.2
  complete : ∀ {a rest}, R p.ahead.1 a rest →
    ∃ q, x p = (.ok a, q) ∧ q.ahead = (rest, p.ahead.2)

/-- `Reads` at every state with fewer than `m` tokens left. -/
def ReadsBelow (m : Nat) (R : List Token → α → List Token → Prop) (x : Parse α) : Prop :=
  ∀ p : Parser, p.remaining < m → Reads R x p

namespace Reads

variable {R R' : List Token → α → List Token → Prop} {x : Parse α} {p : Parser}

/-- Relations that agree on the tokens ahead are read alike. -/
theorem congr (h : Reads R x p) (hR : ∀ a rest, R' p.ahead.1 a rest ↔ R p.ahead.1 a rest) :
    Reads R' x p where
  sound hx := ⟨(hR _ _).mpr (h.sound hx).1, (h.sound hx).2⟩
  complete hr := h.complete ((hR _ _).mp hr)

theorem pure (a : α) (p : Parser) :
    Reads (fun ts b rest => b = a ∧ rest = ts) (Pure.pure a : Parse α) p where
  sound hx := by
    cases hx
    exact ⟨⟨rfl, rfl⟩, rfl⟩
  complete := by
    rintro _ _ ⟨rfl, rfl⟩
    exact ⟨p, rfl, rfl⟩

theorem reject (e : ParseError) (p : Parser) :
    Reads (fun _ _ _ => False) (Parser.reject e : Parse α) p where
  sound hx := nomatch hx
  complete := False.elim

theorem bounded {y : Nat → Parse α} (h : Reads R (y (p.remaining + 1)) p) :
    Reads R (Parser.bounded y) p := ⟨h.sound, h.complete⟩

/-- One parser after another reads what the one and then the other allows. -/
theorem bind {d : Nat} {S : α → List Token → β → List Token → Prop} {f : α → Parse β}
    (hs : Settles d x p) (hx : Reads R x p)
    (hf : ∀ a q, x p = (.ok a, q) → q.remaining + d ≤ p.remaining → Reads (S a) (f a) q) :
    Reads (fun ts b rest => ∃ a mid, R ts a mid ∧ S a mid b rest) (x >>= f) p := by
  have next : ∀ {a q}, x p = (.ok a, q) → Reads (S a) (f a) q := by
    intro a q hq
    refine hf a q hq ?_
    unfold Settles at hs
    rw [hq] at hs
    exact hs
  constructor
  · intro b r hr
    rw [Attempt.bind_apply] at hr
    split at hr
    next a q hq =>
      obtain ⟨hR, hend⟩ := hx.sound hq
      obtain ⟨hS, hend'⟩ := (next hq).sound hr
      exact ⟨⟨a, _, hR, hS⟩, hend'.trans hend⟩
    next => cases hr
  · rintro b rest ⟨a, mid, hR, hS⟩
    obtain ⟨q, hq, hmid⟩ := hx.complete hR
    have hS' : S a q.ahead.1 b rest := by rw [hmid]; exact hS
    obtain ⟨r, hr, hrest⟩ := (next hq).complete hS'
    rw [hmid] at hrest
    exact ⟨r, by rw [Attempt.bind_apply, hq]; exact hr, hrest⟩

/-- After a look at the next token, what is ahead begins with it. -/
theorem peek_bind {f : Token → Parse α} (hnil : ∀ a rest, ¬ R [] a rest)
    (hf : ∀ t ts q, peek p = (.ok t, q) → q.ahead.1 = t :: ts → q.remaining ≤ p.remaining →
      Reads R (f t) q) : Reads R (peek >>= f) p := by
  cases hp : peek p with
  | mk r q =>
      cases r with
      | error e =>
          have hbind : (peek >>= f) p = (.error e, q) := by rw [Attempt.bind_apply, hp]
          constructor
          · intro a q' hx
            rw [hbind] at hx
            cases hx
          · intro a rest hr
            rw [ahead_of_error hp] at hr
            exact (hnil a rest hr).elim
      | ok t =>
          have hbind : (peek >>= f) p = f t q := by rw [Attempt.bind_apply, hp]
          have hle := settles_peek p
          unfold Settles at hle
          rw [hp] at hle
          obtain ⟨ts, hts⟩ := List.head?_eq_some_iff.mp (head?_ahead hp)
          rw [← ahead_peek hp] at hts
          have h := hf t ts q hp hts hle
          constructor
          · intro a q' hx
            rw [hbind] at hx
            rw [← ahead_peek hp]
            exact h.sound hx
          · intro a rest hr
            rw [hbind, ← ahead_peek hp] at *
            exact h.complete hr

end Reads

/-! ### Tokens -/

/-- Taking a token gives the first of those ahead. -/
theorem reads_advance {p : Parser} {t : Token} (h : p.lookahead = some t) (ht : t.kind ≠ .eof) :
    Reads (fun ts u rest => ts = u :: rest) advance p := by
  have hp := peek_of_lookahead h
  have hadv := advance_of_lookahead h ht
  constructor
  · intro u q hx
    rw [hadv] at hx
    cases hx
    rw [ahead_of_ne_eof hp ht]
    exact ⟨rfl, rfl⟩
  · intro u rest hu
    rw [ahead_of_ne_eof hp ht] at hu ⊢
    cases hu
    exact ⟨_, hadv, rfl⟩

/-- Asking for a kind gives the first of those ahead, if it is of that kind. -/
theorem reads_expect {kind : TokenKind} (hk : kind ≠ .eof) (p : Parser) :
    Reads (fun ts t rest => ts = t :: rest ∧ t.kind = kind) (expect kind) p := by
  refine .peek_bind (by simp) fun t ts q hp hts _ => ?_
  split
  next ht =>
    refine (reads_advance (lookahead_peek hp) (ht ▸ hk)).congr fun u rest => ?_
    simp only [hts, List.cons.injEq, and_iff_left_iff_imp]
    rintro ⟨rfl, -⟩
    exact ht
  next ht =>
    refine (Reads.reject _ q).congr fun u rest => ?_
    simp only [hts, List.cons.injEq, iff_false]
    rintro ⟨⟨rfl, -⟩, hu⟩
    exact ht hu

/-- Taking the token that was looked at leaves the others. -/
theorem Reads.advance_bind {p q : Parser} {t : Token}
    {S : Token → List Token → α → List Token → Prop} {f : Token → Parse α}
    (hp : peek p = (.ok t, q)) (ht : t.kind ≠ .eof)
    (hf : ∀ u r, r.remaining + 1 ≤ q.remaining → Reads (S u) (f u) r) :
    Reads (fun ts a rest => ∃ u mid, ts = u :: mid ∧ S u mid a rest) (advance >>= f) q :=
  .bind (settles_advance (lookahead_peek hp) ht) (reads_advance (lookahead_peek hp) ht)
    fun u r _ le => hf u r le

theorem Reads.expect_bind {kind : TokenKind} {p : Parser}
    {S : Token → List Token → α → List Token → Prop} {f : Token → Parse α} (hk : kind ≠ .eof)
    (hf : ∀ t r, r.remaining + 1 ≤ p.remaining → Reads (S t) (f t) r) :
    Reads (fun ts a rest => ∃ t mid, (ts = t :: mid ∧ t.kind = kind) ∧ S t mid a rest)
      (expect kind >>= f) p :=
  .bind (settles_expect hk p) (reads_expect hk p) fun t r _ le => hf t r le

theorem at?_bind (kind : TokenKind) (f : Bool → Parse α) :
    at? kind >>= f = peek >>= fun t => f (t.kind == kind) := Attempt.bind_assoc _ _ _

theorem eat_bind (kind : TokenKind) (f : Bool → Parse α) :
    eat kind >>= f =
      peek >>= fun t => if t.kind = kind then advance >>= fun _ => f true else f false := by
  unfold eat
  rw [at?_bind, Attempt.bind_assoc]
  funext p
  refine Attempt.bind_congr fun t q _ => ?_
  by_cases ht : t.kind = kind
  · simp only [ht, beq_self_eq_true, if_true, Attempt.bind_assoc, Attempt.pure_bind]
  · simp only [beq_eq_false_iff_ne.mpr ht, if_neg ht, Bool.false_eq_true, if_false,
      Attempt.pure_bind]

/-! ### The tokens of a source -/

theorem peek_ofLexer {l l' : Lexer} {t : Token} (h : l.nextToken = (.ok t, l')) :
    peek (ofLexer l) = (.ok t, { lexer := l', lookahead := some t }) := by
  simp [peek, pull, ofLexer, h]

theorem peek_ofLexer_error {l l' : Lexer} {e : LexError} (h : l.nextToken = (.error e, l')) :
    peek (ofLexer l) = (.error (.error (.lex e)), { lexer := l', lookahead := none }) := by
  simp [peek, pull, ofLexer, h]

/-- **The tokens of a source** are those ahead at its start, up to the first error if there is
one. -/
theorem tokenize_ahead (l : Lexer) :
    match l.tokenize with
    | (.ok ts, l') =>
      (ofLexer l).ahead.1 = ts ∧ { (ofLexer l).ahead.2 with finished := true } = l'
    | (.error _, _) => ∀ t ∈ (ofLexer l).ahead.1, t.kind ≠ .eof := by
  fun_induction Lexer.tokenize l with
  | case1 l e l' h =>
      rw [ahead_of_error (peek_ofLexer_error h)]
      simp
  | case2 l t l' h ht =>
      rw [ahead_of_eof (peek_ofLexer h) ht]
      exact ⟨rfl, rfl⟩
  | case3 l t l' h ht ts l'' hts ih =>
      rw [hts] at ih
      rw [ahead_of_ne_eof (peek_ofLexer h) ht]
      exact ⟨congrArg _ ih.1, ih.2⟩
  | case4 l t l' h ht e l'' he ih =>
      rw [he] at ih
      rw [ahead_of_ne_eof (peek_ofLexer h) ht]
      intro u hu
      rcases List.mem_cons.mp hu with rfl | hu
      · exact ht
      · exact ih u hu

/-- A token that is pulled has a handle just when its kind has a text. -/
theorem isSome_value_of_peek {p q : Parser} {t : Token} (hp : p.lookahead = none)
    (h : peek p = (.ok t, q)) : t.value.isSome = t.kind.hasValue := by
  simp only [peek, hp, pull] at h
  cases hl : p.lexer.nextToken with
  | mk r l =>
      rw [hl] at h
      cases r <;> cases h
      exact Lexer.isSome_value_of_nextToken hl

/-- Every token of a source has the handle of its text just when its kind has a text. -/
theorem isSome_value_of_mem_ahead {p : Parser} (hp : p.lookahead = none) :
    ∀ t ∈ p.ahead.1, t.value.isSome = t.kind.hasValue := by
  fun_induction ahead p with
  | case1 p e q h => simp
  | case2 p t q h ht => simpa using isSome_value_of_peek hp h
  | case3 p t q h ht rest ih =>
      intro u hu
      rcases List.mem_cons.mp hu with rfl | hu
      · exact isSome_value_of_peek hp h
      · exact ih rfl u hu

end ScriptLang.Parser
