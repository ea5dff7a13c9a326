import ScriptLang.Lexer

/-!
# What tokens carry

Names, numbers and strings have a text and no other token has one (`isSome_value_of_nextToken`).  So
the end of the source adds nothing to the table (`table_of_nextToken_eof`).  Reading everything is
reading one token after the other (`tokenize_eq`).
-/

namespace ScriptLang

/-- Operators and delimiters have no text. -/
theorem punctuation?_hasValue {c : Char} {next : Option Char} {kind : TokenKind} {n : Nat}
    (h : punctuation? c next = some (kind, n)) : kind.hasValue = false := by
  unfold punctuation? at h
  split at h <;> (try split at h) <;> cases h <;> rfl

theorem keyword?_hasValue {text : Text} {kind : TokenKind}
    (h : TokenKind.keyword? text = some kind) : kind.hasValue = false := by
  have hmem : kind ∈ TokenKind.keywords := List.mem_of_find?_eq_some h
  revert hmem
  cases kind <;> simp [TokenKind.keywords, TokenKind.hasValue]

namespace Scanner

/-- Every lexeme that `x` reads has a text just when its kind has one. -/
def Carries (x : Scan Lexeme) : Prop :=
  ∀ s l s', x s = (.ok l, s') → l.text.isSome = l.kind.hasValue

/-- What lexeme is read is decided by the last reader. -/
theorem Carries.bind {α : Type} {x : Scan α} {f : α → Scan Lexeme} (hf : ∀ a, Carries (f a)) :
    Carries (x >>= f) := by
  intro s l s' h
  rw [Attempt.bind_apply] at h
  split at h
  next a t _ => exact hf a t l s' h
  next => cases h

theorem carries_pure {l : Lexeme} (h : l.text.isSome = l.kind.hasValue) : Carries (pure l) := by
  intro s l' s' hl
  cases hl
  exact h

/-- **A lexeme has a text** just when it is a name, a number or a string. -/
theorem carries_next : Carries next := by
  refine .bind fun _ => .bind fun pos => .bind fun rest => ?_
  split
  · exact carries_pure rfl
  unfold lexeme
  split
  · exact .bind fun _ => carries_pure rfl
  split
  · exact .bind fun _ => carries_pure rfl
  split
  · refine .bind fun text => ?_
    split
    next hk => exact carries_pure (keyword?_hasValue hk).symm
    next => exact carries_pure rfl
  split
  next hp => exact .bind fun _ => carries_pure (punctuation?_hasValue hp).symm
  next => exact fun s l s' h => nomatch h

end Scanner

namespace Lexer

/-- A token is a lexeme, with the handle of its text if it has one. -/
theorem nextToken_eq_ok {l l' : Lexer} {t : Token} (h : l.nextToken = (.ok t, l')) :
    ∃ x s, l.scanner.next = (.ok x, s) ∧ t.kind = x.kind ∧
      (x.text = none ∧ t.value = none ∧ l' = { l with scanner := s } ∨
        ∃ text, x.text = some text ∧ t.value = some (l.table.intern text).1 ∧
          l' = { l with scanner := s, table := (l.table.intern text).2 }) := by
  rw [nextToken, Attempt.bind_apply] at h
  simp only [lexeme] at h
  generalize l.scanner.next = r at h
  obtain ⟨_ | x, s⟩ := r
  · cases h
  · simp only [internLexeme] at h
    split at h <;> cases h
    next hx => exact ⟨x, s, rfl, rfl, .inl ⟨hx, rfl, rfl⟩⟩
    next text hx => exact ⟨x, s, rfl, rfl, .inr ⟨text, hx, rfl, rfl⟩⟩

/-- A token has a handle just when its kind has a text. -/
theorem isSome_value_of_nextToken {l l' : Lexer} {t : Token} (h : l.nextToken = (.ok t, l')) :
    t.value.isSome = t.kind.hasValue := by
  obtain ⟨x, s, hx, hk, ⟨htext, ht, -⟩ | ⟨text, htext, ht, -⟩⟩ := nextToken_eq_ok h <;>
    simpa [ht, hk, htext] using Scanner.carries_next _ _ _ hx

/-- The end of the source adds nothing to the table. -/
theorem table_of_nextToken_eof {l l' : Lexer} {t : Token} (h : l.nextToken = (.ok t, l'))
    (ht : t.kind = .eof) : l'.table = l.table := by
  have hvalue := isSome_value_of_nextToken h
  obtain ⟨x, s, -, -, ⟨-, -, rfl⟩ | ⟨text, -, hsome, -⟩⟩ := nextToken_eq_ok h
  · rfl
  · rw [ht, hsome] at hvalue
    cases hvalue

/-- **Reading everything** is reading a token and, unless it is the last, reading the rest. -/
theorem tokenize_eq (l : Lexer) :
    l.tokenize =
      match l.nextToken with
      | (.error e, l') => (.error e, { l' with finished := true })
      | (.ok t, l') =>
        if t.kind = .eof then (.ok [t], { l' with finished := true })
        else (l'.tokenize.1.map (t :: ·), l'.tokenize.2) := by
  rw [tokenize]
  split
  next e l' h => rw [h]
  next t l' h =>
    rw [h]
    dsimp only
    split
    · rfl
    · rcases l'.tokenize with ⟨_ | _, _⟩ <;> rfl

end Lexer

end ScriptLang
