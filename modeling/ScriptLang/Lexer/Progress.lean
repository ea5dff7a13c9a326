import ScriptLang.Lexer.Readers

/-!
# Reading goes forward

Whatever the scanner does, it never puts bytes back (`readers_forward`), and a lexeme other than the
end of the source takes at least one byte (`length_next_lt`).  So a source has finitely many
lexemes, and whoever reads them all comes to an end.
-/

namespace ScriptLang.Scanner

/-! ### Reading goes forward -/

/-- No more is left to read in `s'` than in `s`. -/
def NoMoreLeft (s s' : Scanner) : Prop := s'.cursor.rest.length ≤ s.cursor.rest.length

theorem NoMoreLeft.trans (a b c : Scanner) (hab : NoMoreLeft a b) (hbc : NoMoreLeft b c) :
    NoMoreLeft a c :=
  Nat.le_trans hbc hab

/-- No more is left to read after `x` than before it. -/
abbrev Forward {α : Type} (x : Scan α) : Prop := Attempt.Keeps NoMoreLeft x

/-- **Reading goes forward**, by whichever of the readers. -/
theorem readers_forward : Readers Forward where
  bind := Attempt.Keeps.bind NoMoreLeft.trans
  pure _ _ := Nat.le_refl _
  fail _ _ := Nat.le_refl _
  remaining _ := Nat.le_refl _
  position _ := Nat.le_refl _
  skip n s := by simp [NoMoreLeft, skip, Cursor.skip]
  skipTrivia s := by simpa [NoMoreLeft, skipTrivia] using s.cursor.length_trivia_le
  copy _ _ s := by simp [NoMoreLeft, copy, Cursor.skip]
  write b s := by
    simp only [write]
    split <;> exact Nat.le_refl _
  take _ := Nat.le_refl _

/-! ### Lexemes take bytes -/

/-- A run that is copied is passed over as a whole. -/
theorem copy_eq_ok {keep : UInt8 → Bool} {run : Text} {s s' : Scanner} {u : Unit}
    (h : copy keep run s = (.ok u, s')) : s'.cursor = s.cursor.skip run.length := by
  simp only [copy, Prod.mk.injEq] at h
  obtain ⟨hok, rfl⟩ := h
  split at hok <;> simp_all

/-- A success of `x` from `s` leaves less to read. -/
def Takes {α : Type} (x : Scan α) (s : Scanner) : Prop :=
  ∀ a s', x s = (.ok a, s') → s'.cursor.rest.length < s.cursor.rest.length

/-- If the first of two readers takes bytes, the second only has to go forward. -/
theorem Takes.bind_left {α β : Type} {x : Scan α} {f : α → Scan β} {s : Scanner} (hx : Takes x s)
    (hf : ∀ a, Forward (f a)) : Takes (x >>= f) s := by
  intro b s'' h
  rw [Attempt.bind_apply] at h
  split at h <;> rename_i a s' heq
  · have hle := hf a s'
    rw [h] at hle
    exact Nat.lt_of_le_of_lt hle (hx _ _ heq)
  · simp at h

/-- The second of two readers may be the one that takes bytes. -/
theorem Takes.bind_right {α β : Type} {x : Scan α} {f : α → Scan β} {s s' : Scanner} {a : α}
    (hx : x s = (.ok a, s')) (hle : s'.cursor.rest.length ≤ s.cursor.rest.length)
    (hf : Takes (f a) s') : Takes (x >>= f) s := by
  intro b s'' h
  rw [Attempt.bind_apply, hx] at h
  exact Nat.lt_of_lt_of_le (hf _ _ h) hle

theorem takes_fail {α : Type} (e : LexError) (s : Scanner) : Takes (Attempt.fail e : Scan α) s := by
  intro a s' h
  simp at h

theorem takes_skip {n : Nat} {s : Scanner} (hn : 0 < n) (hs : s.cursor.rest ≠ []) :
    Takes (skip n) s := by
  intro a s' h
  simp only [skip, Prod.mk.injEq] at h
  obtain ⟨-, rfl⟩ := h
  have hleft := List.length_pos_iff.mpr hs
  simp only [Cursor.skip, List.length_drop]
  omega

theorem takes_copy {keep : UInt8 → Bool} {run : Text} {s : Scanner} (hr : run ≠ [])
    (hs : s.cursor.rest ≠ []) : Takes (copy keep run) s := by
  intro a s' h
  have hleft := List.length_pos_iff.mpr hs
  have hrun := List.length_pos_iff.mpr hr
  rw [copy_eq_ok h]
  simp only [Cursor.skip, List.length_drop]
  omega

/-- A word takes its first letter. -/
theorem takes_word {b : UInt8} {rest : Text} {s : Scanner} (hs : s.cursor.rest = b :: rest)
    (hb : isLetter b) : Takes word s := by
  refine Takes.bind_right rfl (Nat.le_refl _)
    (Takes.bind_left (takes_copy ?_ ?_) fun _ => readers_forward.take)
  · simp [hs, isWordByte, hb]
  · simp [hs]

/-- A number takes its first digit. -/
theorem takes_number {b : UInt8} {rest : Text} {s : Scanner} (hs : s.cursor.rest = b :: rest)
    (hb : isDigit b) : Takes number s := by
  obtain ⟨behind, hbehind, heq⟩ := readers_forward.exists_number
  rw [heq]
  refine Takes.bind_right rfl (Nat.le_refl _) (Takes.bind_left (takes_copy ?_ ?_) hbehind)
  · rw [hs, numberRun]
    split <;> simp [isNumberByte, hb]
  · simp [hs]

/-- A string takes its opening quote. -/
theorem takes_string (quote : UInt8) {s : Scanner} (hs : s.cursor.rest ≠ []) :
    Takes (string quote) s := by
  obtain ⟨behind, hbehind, heq⟩ := readers_forward.exists_string quote
  rw [heq]
  exact (takes_skip Nat.one_pos hs).bind_left hbehind

/-- Every operator and delimiter has at least one byte. -/
theorem punctuation?_length {c : Char} {next : Option Char} {kind : TokenKind} {n : Nat}
    (h : punctuation? c next = some (kind, n)) : 0 < n := by
  unfold punctuation? at h
  split at h <;> (try split at h) <;> simp_all <;> omega

/-- What begins a lexeme is taken with it. -/
theorem takes_lexeme {b : UInt8} {rest : Text} {s : Scanner} (pos : Position)
    (hs : s.cursor.rest = b :: rest) : Takes (lexeme b rest pos) s := by
  have hne : s.cursor.rest ≠ [] := by simp [hs]
  unfold lexeme
  split
  · exact (takes_string b hne).bind_left fun _ => readers_forward.pure _
  split
  · exact (takes_number hs ‹_›).bind_left fun _ => readers_forward.pure _
  split
  · refine (takes_word hs ‹_›).bind_left fun text => ?_
    split <;> exact readers_forward.pure _
  split
  · exact (takes_skip (punctuation?_length ‹_›) hne).bind_left fun _ => readers_forward.pure _
  · exact takes_fail _ s

/-- **A lexeme takes bytes**: a lexeme other than the end of the source takes at least one. -/
theorem length_next_lt {s s' : Scanner} {l : Lexeme} (h : next s = (.ok l, s'))
    (hl : l.kind ≠ .eof) : s'.cursor.rest.length < s.cursor.rest.length := by
  have hle := readers_forward.skipTrivia s
  unfold next at h
  rw [Attempt.bind_apply] at h
  generalize skipTrivia s = r at h hle
  obtain ⟨_ | _, t⟩ := r
  · simp at h
  · simp only [Attempt.bind_apply, position, remaining] at h
    cases hr : t.cursor.rest with
    | nil =>
        simp only [hr, Attempt.pure_apply, Prod.mk.injEq, Except.ok.injEq] at h
        simp [← h.1] at hl
    | cons b rest =>
        simp only [hr] at h
        exact Nat.lt_of_lt_of_le (takes_lexeme _ hr _ _ h) hle

end ScriptLang.Scanner
