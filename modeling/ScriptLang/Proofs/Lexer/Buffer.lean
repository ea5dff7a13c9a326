import ScriptLang.Proofs.Lexer.Reports

/-!
# The buffer of a lexer

Bytes are stored one by one and only where there is room, so the buffer never holds more than its
bound, also after errors, which leave in it what was stored.  Every lexeme that has a text, and
every keyword, ends with taking what is stored, whatever was left there before.

* `Lexer.length_buffer_le`: the buffer of a lexer after any number of calls.
* `Lexer.buffer_eq_nil`: the buffer after a token that was stored.
-/

namespace ScriptLang

namespace TokenKind

/-- Whether the text of a token goes through the buffer: names, numbers, strings and keywords. -/
def isStored (kind : TokenKind) : Bool := kind.hasValue || keywords.contains kind

end TokenKind

/-- Storing stops where there is no room. -/
theorem length_store_le {limit : Nat} {keep : UInt8 → Bool} {buffer run : Text}
    (h : buffer.length ≤ limit) : (store limit keep buffer run).1.length ≤ limit := by
  fun_induction store limit keep buffer run with
  | case1 => exact h
  | case2 buffer b run _ hroom ih =>
      refine ih ?_
      rw [List.length_append]
      exact hroom
  | case3 => exact h
  | case4 _ _ _ _ ih => exact ih h

namespace Scanner

variable {α β : Type}

/-! ### Room in the buffer -/

/-- The bound stays, and what is stored stays within it. -/
def StaysWithin (s s' : Scanner) : Prop :=
  s'.limit = s.limit ∧ (s.buffer.length ≤ s.limit → s'.buffer.length ≤ s'.limit)

theorem StaysWithin.trans (s₁ s₂ s₃ : Scanner) (h : StaysWithin s₁ s₂) (h' : StaysWithin s₂ s₃) :
    StaysWithin s₁ s₃ :=
  ⟨h'.1.trans h.1, fun hs => h'.2 (h.2 hs)⟩

/-- **Every reader stays within the bound.** -/
theorem readers_staysWithin : Readers (Attempt.Keeps StaysWithin) where
  bind := Attempt.Keeps.bind StaysWithin.trans
  pure _ _ := ⟨rfl, id⟩
  fail _ _ := ⟨rfl, id⟩
  remaining _ := ⟨rfl, id⟩
  position _ := ⟨rfl, id⟩
  skip _ _ := ⟨rfl, id⟩
  skipTrivia _ := ⟨rfl, id⟩
  copy _ _ _ := ⟨rfl, length_store_le⟩
  write b s := by
    unfold write
    split
    next hroom =>
      refine ⟨rfl, fun _ => ?_⟩
      rw [List.length_append]
      exact hroom
    next => exact ⟨rfl, id⟩
  take _ := ⟨rfl, fun _ => Nat.zero_le _⟩

/-! ### Taking what is stored -/

/-- A success of `x` leaves nothing stored. -/
def Empties (x : Scan α) : Prop := ∀ s a s', x s = (.ok a, s') → s'.buffer = []

/-- Whether anything is left is decided by the last reader. -/
theorem Empties.bind {x : Scan α} {f : α → Scan β} (hf : ∀ a, Empties (f a)) :
    Empties (x >>= f) := by
  intro s b s'' h
  obtain ⟨a, s', -, h⟩ := Attempt.bind_eq_ok_iff.mp h
  exact hf a s' b s'' h

theorem Empties.bind_pure {x : Scan α} (hx : Empties x) (f : α → β) :
    Empties (x >>= fun a => Pure.pure (f a)) := by
  intro s b s'' h
  obtain ⟨a, s', hrun, h⟩ := Attempt.bind_eq_ok_iff.mp h
  cases h
  exact hx s a _ hrun

theorem empties_fail (e : LexError) : Empties (Attempt.fail e : Scan α) := fun _ _ _ h => nomatch h

theorem empties_take : Empties take := by
  intro s a s' h
  cases h
  rfl

theorem empties_word : Empties word := .bind fun _ => .bind fun _ => empties_take

theorem empties_number : Empties number := by
  refine .bind fun _ => .bind fun _ => .bind fun after => ?_
  split
  · exact .bind fun _ => empties_fail _
  · exact empties_take

theorem empties_string (quote : UInt8) : Empties (string quote) := by
  refine .bind fun _ => .bind fun _ => .bind fun _ => .bind fun _ => .bind fun after => ?_
  split
  · exact .bind fun _ => empties_fail _
  · split
    · exact .bind fun _ => empties_take
    · exact .bind fun _ => empties_fail _

/-- Names, numbers, strings and keywords are read by taking what is stored. -/
theorem buffer_of_lexeme {b : UInt8} {rest : Text} {pos : Position} {s s' : Scanner} {x : Lexeme}
    (h : lexeme b rest pos s = (.ok x, s')) (hx : x.kind.isStored) : s'.buffer = [] := by
  unfold lexeme at h
  split at h
  next => exact (empties_string b).bind_pure _ s x s' h
  split at h
  next => exact empties_number.bind_pure _ s x s' h
  split at h
  next =>
    obtain ⟨text, s₁, hword, h⟩ := Attempt.bind_eq_ok_iff.mp h
    have hempty := empties_word s text s₁ hword
    cases hkey : TokenKind.keyword? text <;> rw [hkey] at h <;> cases h <;> exact hempty
  next =>
    cases hpunct : punctuation? (Text.byteChar b) (rest.head?.map Text.byteChar) with
    | none =>
        rw [hpunct] at h
        cases h
    | some operator =>
        rw [hpunct] at h
        cases h
        -- An operator is not stored.
        have hall : ∀ kind ∈ TokenKind.operators, kind.isStored = false := by decide
        rw [hall _ (punctuation?_eq_some_iff.mp hpunct).1] at hx
        cases hx

theorem buffer_of_next {s s' : Scanner} {x : Lexeme} (h : next s = (.ok x, s'))
    (hx : x.kind.isStored) : s'.buffer = [] := by
  obtain ⟨_, s₁, -, h⟩ := Attempt.bind_eq_ok_iff.mp h
  simp only [Attempt.bind_apply, position, remaining] at h
  cases hrest : s₁.cursor.rest with
  | nil =>
      rw [hrest] at h
      cases h
      cases hx
  | cons b rest =>
      rw [hrest] at h
      exact buffer_of_lexeme h hx

end Scanner

/-! ### The lexer -/

namespace Lexer

variable (source : Text) (table : Intern.Table) (limit n : Nat)

/-- **The buffer never holds more than its bound.** -/
theorem length_buffer_le :
    ((ofText source table limit).asked n).scanner.buffer.length ≤ limit := by
  have hwithin : (Scanner.ofText source limit).StaysWithin
      ((ofText source table limit).asked n).scanner := by
    induction n with
    | zero => exact ⟨rfl, id⟩
    | succ n ih =>
        rw [asked, scanner_nextToken]
        exact ih.trans _ _ _ (Scanner.readers_staysWithin.next _)
  have hle := hwithin.2 (Nat.zero_le _)
  rwa [hwithin.1] at hle

/-- **Nothing is stored** after a token whose text went through the buffer. -/
theorem buffer_eq_nil {l l' : Lexer} {t : Token} (h : l.nextToken = (.ok t, l'))
    (ht : t.kind.isStored) : l'.scanner.buffer = [] := by
  obtain ⟨x, hnext, hkind, -⟩ := nextToken_eq_lexeme h
  exact Scanner.buffer_of_next hnext (hkind ▸ ht)

end Lexer

end ScriptLang
