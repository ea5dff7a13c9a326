import ScriptLang.Proofs.Lexer.Positions
import ScriptLang.Proofs.Text

/-!
# Where tokens and errors point

The scanner is a cursor that only ever goes on counting, whether it reads a lexeme or fails
(`Scanner.tracks_next`), and an error says where it left the cursor (`LexError.Marks`).  So what
`Cursor.Reaches` says of one step holds of a lexer after any number of calls.

An unexpected character is a whole character only where the cursor is not within one.  After an
error it may be: the bound on texts can fall inside a character.  Before the first error it is not,
because every lexeme ends with an ASCII byte (`Lexes.endsAscii`), and so does the trivia before a
lexeme (`Trivia.endsAscii`).

* **Positions are true** (`Lexer.positions_true`), of the lexer, of its tokens and of its errors.
-/

namespace ScriptLang

/-! ### Errors -/

namespace LexError

/-- What an error says about the cursor it leaves.  Most point at the cursor itself; the missing
half of an operator is one column to the right of it, and a line that ends in a string is reported
one column to the left of its end. -/
def Marks (e : LexError) (c : Cursor) : Prop :=
  match e with
  | unterminatedComment | unterminatedString _ => c.rest = []
  | newlineInString p => c.rest.head?.any isLineEnd ∧ p.right 1 = c.pos
  | unexpectedCharacter ch p => c.rest ≠ [] ∧ ch = c.rest.firstChar ∧ p = c.pos
  | expectedCharacter _ p => p = c.pos.right 1
  | tooLong p => p = c.pos

/-- An error within a lexeme, where no character but a point is unexpected. -/
def Within (e : LexError) (c : Cursor) : Prop :=
  e.Marks c ∧
    match e with
    | unexpectedCharacter _ _ => c.rest.head?.any isPoint
    | _ => True

end LexError

/-- An error for want of a lexeme is at the cursor, or at the missing half behind it. -/
theorem marks_noLexeme {c : Cursor} (hc : c.rest ≠ []) : (noLexeme c.rest c.pos).Marks c := by
  unfold noLexeme
  dsimp only
  split
  · rfl
  · exact ⟨hc, rfl, rfl⟩

namespace Cursor

/-- Trivia fails only at the end of the source, where a comment is open. -/
theorem triviaFrom_eq_error {zone : Zone} {p : Position} {t : Text} {e : LexError}
    (h : (triviaFrom zone p t).1 = .error e) : e.Within (triviaFrom zone p t).2 := by
  fun_induction triviaFrom zone p t with
  | case1 zone p =>
      split at h
      · cases h
        exact ⟨rfl, trivial⟩
      · cases h
  | case2 => cases h
  | case3 _ _ _ _ _ _ _ _ ih | case4 _ _ _ _ _ _ _ ih => exact ih h

end Cursor

/-! ### The scanner tracks its position -/

/-- A byte of a number is ASCII and no line end. -/
theorem lt_of_isNumberByte {b : UInt8} (h : isNumberByte b || isPoint b) :
    b < 128 ∧ isLineEnd b = false := by
  simp only [isNumberByte, isLetter, isDigit, isUnderscore, isPoint, Bool.or_eq_true,
    Bool.and_eq_true, decide_eq_true_eq, beq_iff_eq] at h
  simp only [isLineEnd, Bool.or_eq_false_iff, beq_eq_false_iff_ne]
  grind

theorem lt_of_isWordByte {b : UInt8} (h : isWordByte b) : b < 128 ∧ isLineEnd b = false := by
  refine lt_of_isNumberByte ?_
  simp only [isWordByte, Bool.or_eq_true] at h
  rcases h with h | h <;> simp [isNumberByte, h]

theorem lt_of_isQuote {b : UInt8} (h : isQuote b) : b < 128 ∧ isLineEnd b = false := by
  simp only [isQuote, Bool.or_eq_true, beq_iff_eq] at h
  rcases h with rfl | rfl <;> decide

/-- Operators and delimiters are written in ASCII, on one line. -/
theorem lt_of_mem_operator {kind : TokenKind} (h : kind ∈ TokenKind.operators) {b : UInt8}
    (hb : b ∈ Text.ofString kind.spelling) : b < 128 ∧ isLineEnd b = false := by
  have hall : ∀ kind ∈ TokenKind.operators,
      (Text.ofString kind.spelling).all fun b => b < 128 && !isLineEnd b := by
    decide
  have hbyte := List.all_eq_true.mp (hall kind h) b hb
  simpa using hbyte

theorem isNumberByte_of_mem_numberRun {seen : Bool} {t : Text} :
    ∀ b ∈ numberRun seen t, isNumberByte b || isPoint b := by
  fun_induction numberRun seen t with
  | case1 | case2 | case5 => exact List.forall_mem_nil _
  | case3 _ b _ hpoint _ ih => exact List.forall_mem_cons.mpr ⟨by simp [hpoint], ih⟩
  | case4 _ b _ _ hnumber ih => exact List.forall_mem_cons.mpr ⟨by simp [hnumber], ih⟩

/-- What finds no room is the end of what was to be stored. -/
theorem store_suffix (limit : Nat) (keep : UInt8 → Bool) (buffer run : Text) :
    (store limit keep buffer run).2 <:+ run := by
  fun_induction store limit keep buffer run with
  | case1 => exact List.suffix_refl _
  | case2 _ _ _ _ _ ih | case4 _ _ _ _ ih => exact ih.trans (List.suffix_cons _ _)
  | case3 => exact List.suffix_refl _

namespace Scanner

/-- Whether it succeeds or fails, `x` counts what it passes over from `s`, and its errors are
`E`. -/
def Tracks {α : Type} (E : LexError → Cursor → Prop) (x : Scan α) (s : Scanner) : Prop :=
  s.cursor.Reaches (x s).2.cursor ∧ ∀ e, (x s).1 = .error e → E e (x s).2.cursor

section Tracks

variable {α β : Type} {E E' : LexError → Cursor → Prop} {x : Scan α} {s s' : Scanner} {a : α}

theorem Tracks.of_ok (h : x s = (.ok a, s')) (hs : s'.cursor = s.cursor) : Tracks E x s := by
  unfold Tracks
  rw [h, hs]
  exact ⟨.refl _, nofun⟩

theorem tracks_fail {e : LexError} (h : E e s.cursor) : Tracks E (Attempt.fail e : Scan α) s := by
  refine ⟨.refl _, fun e' he => ?_⟩
  cases he
  exact h

theorem Tracks.mono (h : Tracks E x s) (hE : ∀ e c, E e c → E' e c) : Tracks E' x s :=
  ⟨h.1, fun e he => hE e _ (h.2 e he)⟩

/-- The second reader goes on from where the first left the cursor, which is known of it then. -/
theorem Tracks.bind {f : α → Scan β} (hx : Tracks E x s)
    (hf : ∀ a s', x s = (.ok a, s') → Tracks E (f a) s') : Tracks E (x >>= f) s := by
  unfold Tracks at hx ⊢
  rw [Attempt.bind_apply]
  rcases hrun : x s with ⟨e | a, s'⟩
  · rw [hrun] at hx
    refine ⟨hx.1, fun e' he => ?_⟩
    cases he
    exact hx.2 e rfl
  · rw [hrun] at hx
    obtain ⟨hreaches, herror⟩ := hf a s' hrun
    exact ⟨hx.1.trans hreaches, herror⟩

theorem Tracks.remaining_bind {f : Text → Scan β} (h : Tracks E (f s.cursor.rest) s) :
    Tracks E (remaining >>= f) s := h

theorem Tracks.position_bind {f : Position → Scan β} (h : Tracks E (f s.cursor.pos) s) :
    Tracks E (position >>= f) s := h

/-- Bytes that are no line ends may be skipped. -/
theorem Tracks.skip_bind (run : Text) {f : Unit → Scan β} (hrun : run <+: s.cursor.rest)
    (hline : ∀ b ∈ run, isLineEnd b = false)
    (h : Tracks E (f ()) { s with cursor := s.cursor.skip run.length }) :
    Tracks E (skip run.length >>= f) s :=
  ⟨(Cursor.reaches_skip hrun hline).trans h.1, h.2⟩

end Tracks

variable {s s' : Scanner} {b : UInt8} {t : Text}

theorem tracks_skipTrivia (s : Scanner) : Tracks LexError.Within skipTrivia s :=
  ⟨s.cursor.reaches_trivia, fun _ he => Cursor.triviaFrom_eq_error he⟩

/-- Copying stops at the first byte without room, and the error is there. -/
theorem tracks_copy {keep : UInt8 → Bool} {run : Text} (hrun : run <+: s.cursor.rest)
    (hline : ∀ b ∈ run, isLineEnd b = false) : Tracks LexError.Within (copy keep run) s := by
  obtain ⟨stored, hstored⟩ := store_suffix s.limit keep s.buffer run
  have hlength : run.length - (store s.limit keep s.buffer run).2.length = stored.length := by
    have hsum := congrArg List.length hstored
    rw [List.length_append] at hsum
    omega
  have hskip : (copy keep run s).2.cursor = s.cursor.skip stored.length := by
    rw [← hlength]
    rfl
  have hsub : stored <+: run := ⟨_, hstored⟩
  refine ⟨?_, fun e he => ?_⟩
  · rw [hskip]
    exact Cursor.reaches_skip (hsub.trans hrun) fun b hb => hline b (hsub.subset hb)
  · simp only [copy] at he
    split at he
    · cases he
    · cases he
      exact ⟨rfl, trivial⟩

theorem tracks_write (b : UInt8) (s : Scanner) : Tracks LexError.Within (write b) s := by
  by_cases hroom : s.buffer.length < s.limit
  · exact .of_ok (if_pos hroom) rfl
  · unfold Tracks
    rw [write, if_neg hroom]
    refine ⟨.refl _, fun e he => ?_⟩
    cases he
    exact ⟨rfl, trivial⟩

theorem write_eq_ok {u : Unit} (h : write b s = (.ok u, s')) : s'.cursor = s.cursor := by
  unfold write at h
  split at h <;> cases h
  rfl

/-! ### Lexemes -/

/-- A word is passed over, or refused where it is too long. -/
theorem tracks_word (s : Scanner) : Tracks LexError.Within word s := by
  have hrun := List.takeWhile_prefix isWordByte (l := s.cursor.rest)
  refine .remaining_bind (.bind (tracks_copy hrun fun b hb => ?_) fun _ _ _ => .of_ok rfl rfl)
  exact (lt_of_isWordByte (List.all_eq_true.mp List.all_takeWhile b hb)).2

/-- A number is passed over, or refused where it is too long or at its second point. -/
theorem tracks_number (s : Scanner) : Tracks LexError.Within number s := by
  have hrun := numberRun_prefix false s.cursor.rest
  refine .remaining_bind (.bind (tracks_copy hrun fun b hb => ?_) fun _ s₁ _ => .remaining_bind ?_)
  · exact (lt_of_isNumberByte (isNumberByte_of_mem_numberRun b hb)).2
  · split
    next hpoint =>
      -- The cursor stands at the second point.
      obtain ⟨c, rest, hrest, hc⟩ := exists_cons_of_head?_any hpoint
      obtain rfl : c = 46 := eq_of_beq hc
      refine .position_bind (tracks_fail ⟨⟨?_, ?_, rfl⟩, hpoint⟩)
      · rw [hrest]
        exact List.cons_ne_nil _ _
      · rw [hrest]
        exact (Text.firstChar_append '.' rest).symm
    next => exact .of_ok rfl rfl

/-- A string is passed over, or refused where it is too long, or where its line or the source ends
before it does. -/
theorem tracks_string (hquote : isQuote b) (hs : s.cursor.rest = b :: t) :
    Tracks LexError.Within (string b) s := by
  have hline : ∀ c ∈ [b], isLineEnd c = false := by simpa using (lt_of_isQuote hquote).2
  refine .skip_bind [b] ⟨t, hs.symm⟩ hline (.bind (tracks_write _ _) fun _ s₁ hwrite =>
    .remaining_bind ?_)
  obtain ⟨run, rest, hsplit, hrun, hstop⟩ := exists_run (isStringByte b) s₁.cursor.rest
  have htake : s₁.cursor.rest.takeWhile (isStringByte b) = run := by
    rw [hsplit, takeWhile_append_stopsAt hrun hstop]
  have hbody : ∀ c ∈ run, isLineEnd c = false := by
    intro c hc
    have hstring := List.all_eq_true.mp hrun c hc
    simp only [isStringByte, Bool.and_eq_true, Bool.not_eq_true'] at hstring
    exact hstring.2
  rw [htake]
  refine .bind (tracks_copy ⟨rest, hsplit.symm⟩ hbody) fun _ s₂ hcopy => .remaining_bind ?_
  have hcursor : s₂.cursor = (s.cursor.skip 1).skip run.length := by
    rw [copy_eq_ok hcopy, write_eq_ok hwrite]
    rfl
  have hrest : s₂.cursor.rest = rest := by
    rw [copy_eq_ok hcopy, Cursor.skip, hsplit]
    exact List.drop_left
  split
  next hnil =>
    refine .bind (.of_ok rfl rfl) fun _ s₃ htaken => ?_
    cases htaken
    exact tracks_fail ⟨hnil, trivial⟩
  next c rest' hcons =>
    by_cases hclose : c = b
    · subst hclose
      rw [if_pos (beq_self_eq_true c)]
      exact .skip_bind [c] ⟨rest', hcons.symm⟩ hline (.of_ok rfl rfl)
    · rw [if_neg (by simpa using hclose)]
      -- The byte behind the body is neither of the string nor its end.
      have hend : isLineEnd c := by
        rw [← hrest, hcons, stopsAt_cons] at hstop
        simpa [isStringByte, hclose] using hstop
      refine .position_bind (tracks_fail ⟨⟨?_, ?_⟩, trivial⟩)
      · rw [hcons]
        exact hend
      · rw [hcursor]
        simp only [Cursor.skip, Position.right]
        congr 1
        omega

/-- An error of a lexeme is within it, or there is no lexeme and the cursor has not moved. -/
theorem tracks_lexeme (hs : s.cursor.rest = b :: t) :
    Tracks (fun e c => e.Within c ∨ c = s.cursor ∧ e.Marks c) (lexeme b t s.cursor.pos) s := by
  unfold lexeme
  split
  next hquote =>
    exact (tracks_string hquote hs).mono (fun _ _ => .inl) |>.bind fun _ _ _ => .of_ok rfl rfl
  split
  next => exact (tracks_number s).mono (fun _ _ => .inl) |>.bind fun _ _ _ => .of_ok rfl rfl
  split
  next =>
    refine (tracks_word s).mono (fun _ _ => .inl) |>.bind fun text _ _ => ?_
    cases TokenKind.keyword? text <;> exact .of_ok rfl rfl
  split
  next kind n hpunct =>
    obtain ⟨hkind, rest, hsplit, rfl, -⟩ := punctuation?_eq_some_iff.mp hpunct
    refine .skip_bind _ ⟨rest, (hs.trans hsplit).symm⟩ (fun c hc => ?_) (.of_ok rfl rfl)
    exact (lt_of_mem_operator hkind hc).2
  next =>
    rw [← hs]
    exact tracks_fail (.inr ⟨rfl, marks_noLexeme (by simp [hs])⟩)

theorem skipTrivia_eq_ok {u : Unit} (h : skipTrivia s = (.ok u, s')) :
    s.cursor.trivia = (.ok (), s'.cursor) := by
  simp only [skipTrivia, Prod.mk.injEq] at h
  obtain ⟨hok, rfl⟩ := h
  exact Prod.ext hok rfl

/-- **The scanner tracks its position**, and an error is within a lexeme or at the first byte behind
trivia. -/
theorem tracks_next (s : Scanner) :
    Tracks (fun e c => e.Within c ∨ s.cursor.trivia = (.ok (), c) ∧ e.Marks c) next s := by
  refine (tracks_skipTrivia s).mono (fun _ _ => .inl) |>.bind fun _ s₁ hskip =>
    .position_bind (.remaining_bind ?_)
  split
  next => exact .of_ok rfl rfl
  next hrest =>
    refine (tracks_lexeme hrest).mono fun e c => .imp_right ?_
    rintro ⟨rfl, hmarks⟩
    exact ⟨skipTrivia_eq_ok hskip, hmarks⟩

theorem lexeme_eq_ok {p : Position} {x : Lexeme} (h : lexeme b t p s = (.ok x, s')) :
    x.kind ≠ .eof ∧ x.pos = p := by
  unfold lexeme at h
  split at h
  next =>
    obtain ⟨_, _, -, hpure⟩ := Attempt.bind_eq_ok_iff.mp h
    cases hpure
    exact ⟨nofun, rfl⟩
  split at h
  next =>
    obtain ⟨_, _, -, hpure⟩ := Attempt.bind_eq_ok_iff.mp h
    cases hpure
    exact ⟨nofun, rfl⟩
  split at h
  next =>
    obtain ⟨text, _, -, hpure⟩ := Attempt.bind_eq_ok_iff.mp h
    cases hkey : TokenKind.keyword? text with
    | none =>
        rw [hkey] at hpure
        cases hpure
        exact ⟨nofun, rfl⟩
    | some kind =>
        rw [hkey] at hpure
        cases hpure
        have hkind := (TokenKind.keyword?_eq_some_iff.mp hkey).1
        exact ⟨ne_of_mem_of_not_mem hkind (by decide), rfl⟩
  next =>
    cases hpunct : punctuation? (Text.byteChar b) (t.head?.map Text.byteChar) with
    | none =>
        rw [hpunct] at h
        cases h
    | some operator =>
        rw [hpunct] at h
        cases h
        have hkind := (punctuation?_eq_some_iff.mp hpunct).1
        exact ⟨ne_of_mem_of_not_mem hkind (by decide), rfl⟩

/-- A lexeme has the position of the first byte behind trivia, and takes that byte unless it is the
end of the source. -/
theorem next_eq_ok {x : Lexeme} (h : next s = (.ok x, s')) :
    ∃ c, s.cursor.trivia = (.ok (), c) ∧ x.pos = c.pos ∧
      (x.kind = .eof ∧ c.rest = [] ∨
        x.kind ≠ .eof ∧ s'.cursor.rest.length < c.rest.length) := by
  obtain ⟨_, s₁, hskip, hnext⟩ := Attempt.bind_eq_ok_iff.mp h
  refine ⟨s₁.cursor, skipTrivia_eq_ok hskip, ?_⟩
  simp only [Attempt.bind_apply, position, remaining] at hnext
  cases hrest : s₁.cursor.rest with
  | nil =>
      rw [hrest] at hnext
      cases hnext
      exact ⟨rfl, .inl ⟨rfl, rfl⟩⟩
  | cons b t =>
      rw [hrest] at hnext
      obtain ⟨hkind, hpos⟩ := lexeme_eq_ok hnext
      have htakes := takes_lexeme _ hrest _ _ hnext
      rw [hrest] at htakes
      exact ⟨hpos, .inr ⟨hkind, htakes⟩⟩

end Scanner

/-! ### Whole characters -/

/-- A lexeme ends with an ASCII byte. -/
theorem Lexes.endsAscii {limit : Nat} {run rest : Text} {w : Word} (h : Lexes limit run rest w) :
    run.EndsAscii := by
  have hletters {t : Text} (ht : isLetters t) : t.EndsAscii := by
    rw [isLetters, Bool.and_eq_true] at ht
    exact Text.endsAscii_of_forall fun b hb =>
      (lt_of_isWordByte (List.all_eq_true.mp ht.2 b hb)).1
  cases h with
  | @operator kind _ hkind =>
      exact Text.endsAscii_of_forall fun b hb => (lt_of_mem_operator hkind hb).1
  | @keyword kind _ hkind => exact hletters (isLetters_keyword kind hkind)
  | identifier hrun => exact hletters hrun
  | number hrun =>
      simp only [isFigures, Bool.and_eq_true] at hrun
      exact Text.endsAscii_of_forall fun b hb =>
        (lt_of_isNumberByte (List.all_eq_true.mp hrun.1.2 b hb)).1
  | @string quote body _ hquote =>
      exact Text.endsAscii_concat (quote :: body) (lt_of_isQuote hquote).1

/-- Trivia before a lexeme ends with an ASCII byte: a comment up to the end of its line is followed
by the line end. -/
theorem Trivia.endsAscii {t rest : Text} (h : Trivia t rest) (hat : AtToken rest)
    (hrest : rest ≠ []) : ∃ gap : Text, t = gap ++ rest ∧ gap.EndsAscii := by
  induction h with
  | nil => exact ⟨[], rfl, nofun⟩
  | @cons piece t rest hpiece _ ih =>
      obtain ⟨gap, rfl, hgap⟩ := ih hat hrest
      refine ⟨piece ++ gap, (List.append_assoc ..).symm, ?_⟩
      by_cases hlast : gap = []
      · subst hlast
        rw [List.append_nil]
        cases hpiece with
        | @blank b _ hb =>
            refine Text.endsAscii_concat [] ?_
            simp only [isBlank, isLineEnd, Bool.or_eq_true, beq_iff_eq] at hb
            rcases hb with (rfl | rfl) | (rfl | rfl) <;> decide
        | lineComment _ _ hline =>
            obtain ⟨b, rest, rfl⟩ := List.exists_cons_of_ne_nil hrest
            have hbegins := hat b rfl
            rw [beginsToken, hline b rfl] at hbegins
            cases hbegins
        | blockComment =>
            have hmark : Text.EndsAscii [hashMark, hashMark] :=
              Text.endsAscii_concat [hashMark] (by decide)
            exact hmark.append_of_ne_nil (List.cons_ne_nil _ _) _
      · exact hgap.append_of_ne_nil hlast piece

namespace Scanner

variable {source : Text} {s s' : Scanner}

/-- Nothing is stored, and the scanner is at the end of the source or behind an ASCII byte or
nothing. -/
def Aligned (source : Text) (s : Scanner) : Prop :=
  s.buffer = [] ∧ ∃ t : Text, source = t ++ s.cursor.rest ∧ (s.cursor.rest = [] ∨ t.EndsAscii)

theorem aligned_ofText (source : Text) (limit : Nat) : Aligned source (ofText source limit) :=
  ⟨rfl, [], rfl, .inr nofun⟩

/-- **A lexeme keeps the scanner aligned**: it takes what is stored, and ends with an ASCII byte. -/
theorem aligned_next {x : Lexeme} (h : Aligned source s) (hnext : next s = (.ok x, s')) :
    Aligned source s' := by
  obtain ⟨⟨t, p⟩, _, limit⟩ := s
  obtain ⟨rfl, before, rfl, -⟩ := h
  rcases splits_of_next hnext with ⟨-, htrivia⟩ | ⟨run, rest, p', htrivia, hlexes, rfl⟩
  · cases hnext.symm.trans (next_of_end htrivia p)
    exact ⟨rfl, before ++ t, by simp, .inl rfl⟩
  · obtain ⟨gap, rfl⟩ := htrivia.suffix
    obtain ⟨b, tail, hrun, -⟩ := hlexes.exists_cons
    have hne : run ≠ [] := by simp [hrun]
    refine ⟨rfl, before ++ gap ++ run, by simp, .inr ?_⟩
    exact hlexes.endsAscii.append_of_ne_nil hne _

/-- An unexpected character is behind or before an ASCII byte. -/
theorem Aligned.unexpected {ch : Char} {p : Position} (h : Aligned source s)
    (hnext : next s = (.error (.unexpectedCharacter ch p), s')) :
    ch = s'.cursor.rest.firstChar ∧ s'.cursor.rest ≠ [] ∧
      ∃ t : Text, source = t ++ s'.cursor.rest ∧
        (t.EndsAscii ∨ ∃ b ∈ s'.cursor.rest.head?, b < 128) := by
  obtain ⟨-, t, rfl, hends⟩ := h
  obtain ⟨⟨u, hu, -⟩, herror⟩ := tracks_next s
  rw [hnext] at hu herror
  rcases herror _ rfl with ⟨⟨hne, hch, -⟩, hpoint⟩ | ⟨hskip, hne, hch, -⟩
  · obtain ⟨b, rest, hrest, hb⟩ := exists_cons_of_head?_any hpoint
    have hascii := (lt_of_isNumberByte (b := b) (by simp [hb])).1
    refine ⟨hch, hne, t ++ u, by rw [hu, List.append_assoc], .inr ⟨b, ?_, hascii⟩⟩
    rw [hrest]
    rfl
  · obtain ⟨htrivia, hat⟩ := (Cursor.trivia_eq_ok_iff _ _ s'.cursor.rest).mp ⟨_, hskip⟩
    obtain ⟨gap, hgap, hascii⟩ := htrivia.endsAscii hat hne
    -- Something is left, so the scanner was not at the end of the source before.
    have ht := hends.resolve_left (by simp [hgap, hne])
    exact ⟨hch, hne, t ++ gap, by rw [hgap, List.append_assoc], .inl (ht.append hascii)⟩

end Scanner

/-! ### The lexer -/

namespace Lexer

/-- The lexer after it has been asked for `n` tokens, whatever it answered. -/
def asked (l : Lexer) : Nat → Lexer
  | 0 => l
  | n + 1 => (l.asked n).nextToken.2

/-- How many bytes of its source a lexer has read. -/
def offset (l : Lexer) (source : Text) : Nat := source.length - l.remaining

variable {l l' : Lexer}

theorem scanner_nextToken (l : Lexer) : l.nextToken.2.scanner = l.scanner.next.2 := by
  simp only [nextToken, Attempt.bind_apply, lexeme, internLexeme]
  rcases l.scanner.next with ⟨_ | ⟨_, _ | _, _⟩, s⟩ <;> rfl

/-- A token fails where its lexeme does. -/
theorem nextToken_eq_error {e : LexError} (h : l.nextToken = (.error e, l')) :
    l.scanner.next = (.error e, l'.scanner) := by
  simp only [nextToken, Attempt.bind_apply, lexeme, internLexeme] at h
  rcases hnext : l.scanner.next with ⟨_ | ⟨_, _ | _, _⟩, s⟩ <;> rw [hnext] at h <;> cases h
  rfl

/-- A token has the kind and the position of its lexeme. -/
theorem nextToken_eq_lexeme {t : Token} (h : l.nextToken = (.ok t, l')) :
    ∃ x, l.scanner.next = (.ok x, l'.scanner) ∧ t.kind = x.kind ∧ t.pos = x.pos := by
  obtain ⟨x, s, hx, -⟩ := nextToken_eq_ok h
  cases h.symm.trans (nextToken_of_lexeme hx)
  exact ⟨x, hx, rfl, rfl⟩

variable (source : Text) (table : Intern.Table) (limit : Nat)

/-- However often a lexer is asked, with errors or without, its cursor goes on counting. -/
theorem reaches_asked (n : Nat) :
    (Cursor.ofText source).Reaches ((ofText source table limit).asked n).scanner.cursor := by
  induction n with
  | zero => exact .refl _
  | succ n ih =>
      rw [asked, scanner_nextToken]
      exact ih.trans (Scanner.tracks_next _).1

/-- Up to the first error the scanner is aligned. -/
theorem aligned_asked {n : Nat}
    (h : ∀ k < n, ∃ t, ((ofText source table limit).asked k).nextToken.1 = .ok t) :
    Scanner.Aligned source ((ofText source table limit).asked n).scanner := by
  induction n with
  | zero => exact Scanner.aligned_ofText source limit
  | succ n ih =>
      have hbefore := ih fun k hk => h k (Nat.lt_succ_of_lt hk)
      obtain ⟨t, ht⟩ := h n (Nat.lt_succ_self n)
      obtain ⟨x, hnext, -⟩ := nextToken_eq_lexeme (Prod.ext ht rfl)
      exact Scanner.aligned_next hbefore hnext

/-- The character that an aligned lexer does not expect is one of the source. -/
theorem exists_char_of_unexpected {source : String} {ch : Char} {p : Position}
    (hl : l.scanner.Aligned (Text.ofString source))
    (h : l.nextToken = (.error (.unexpectedCharacter ch p), l')) :
    ∃ before behind : String, source = before ++ String.singleton ch ++ behind ∧
      Text.ofString source = Text.ofString before ++ l'.scanner.cursor.rest := by
  obtain ⟨rfl, hne, t, happend, hcut⟩ := hl.unexpected (nextToken_eq_error h)
  obtain ⟨before, behind, hchars, rfl, hbehind⟩ := Text.exists_append_of_ascii happend hcut
  cases behind with
  | nil => exact absurd hbehind.symm hne
  | cons c behind =>
      rw [List.flatMap_cons] at hbehind
      refine ⟨.ofList before, .ofList behind, ?_, ?_⟩
      · rw [← hbehind, Text.firstChar_append, ← String.toList_inj, hchars]
        simp
      · rw [happend, Text.ofString, String.toList_ofList]

/-- An error of a lexer that has counted from the start of its source. -/
theorem marks_of_nextToken {source : Text} {e : LexError}
    (hl : (Cursor.ofText source).Reaches l.scanner.cursor) (h : l.nextToken = (.error e, l')) :
    l'.scanner.cursor = .ofOffset source (l'.offset source) ∧ e.Marks l'.scanner.cursor := by
  obtain ⟨hreaches, herror⟩ := Scanner.tracks_next l.scanner
  rw [nextToken_eq_error h] at hreaches herror
  refine ⟨(hl.trans hreaches).eq_ofOffset, ?_⟩
  rcases herror e rfl with hwithin | ⟨-, hmarks⟩
  · exact hwithin.1
  · exact hmarks

/-- A token of a lexer that has counted from the start of its source, and the offset of its first
byte. -/
theorem first_of_nextToken {source : Text} {t : Token}
    (hl : (Cursor.ofText source).Reaches l.scanner.cursor) (h : l.nextToken = (.ok t, l')) :
    ∃ first, l.offset source ≤ first ∧
      Trivia (source.drop (l.offset source)) (source.drop first) ∧ AtToken (source.drop first) ∧
      t.pos = source.positionAt first ∧
      if t.kind = .eof then first = source.length else first < l'.offset source := by
  obtain ⟨x, hnext, hkind, hpos⟩ := nextToken_eq_lexeme h
  obtain ⟨c, hskip, hxpos, hcase⟩ := Scanner.next_eq_ok hnext
  have hreaches := l.scanner.cursor.reaches_trivia
  have hlength := l.scanner.cursor.length_trivia_le
  rw [hskip] at hreaches hlength
  have hc : (Cursor.ofText source).Reaches c := hl.trans hreaches
  have hrest : l.scanner.cursor.rest = source.drop (l.offset source) :=
    congrArg Cursor.rest hl.eq_ofOffset
  have hrest' : c.rest = source.drop (source.length - c.rest.length) :=
    congrArg Cursor.rest hc.eq_ofOffset
  have htrivia := (Cursor.trivia_eq_ok_iff _ _ c.rest).mp ⟨c.pos, hskip⟩
  refine ⟨source.length - c.rest.length, Nat.sub_le_sub_left hlength _, ?_, ?_, ?_, ?_⟩
  · rw [← hrest, ← hrest']
    exact htrivia.1
  · rw [← hrest']
    exact htrivia.2
  · rw [hpos, hxpos]
    exact congrArg Cursor.pos hc.eq_ofOffset
  · rw [hkind]
    rcases hcase with ⟨heof, hend⟩ | ⟨hne, htakes⟩
    · rw [if_pos heof, hend]
      rfl
    · obtain ⟨before, happend, -⟩ := hc
      have hsum : source.length = (before ++ c.rest).length := congrArg List.length happend
      rw [List.length_append] at hsum
      rw [if_neg hne, offset, remaining]
      omega

/-- **Positions are true to the source.**  After any number of calls, whatever they answered, the
lexer has the position of its offset.  The next token has the position of its first byte, which is
the first behind trivia, and `eof` that of the end of the source.  The next error points where
`LexError.Marks` says, from the offset where it leaves the lexer.  If it is the first error, and a
character is unexpected, then it is a character of the source and begins at the position that is
reported. -/
theorem positions_true (source : String) (table : Intern.Table) (limit n : Nat) :
    let text := Text.ofString source
    let start := ofText text table limit
    let l := start.asked n
    l.scanner.cursor = .ofOffset text (l.offset text) ∧
      (∀ t l', l.nextToken = (.ok t, l') → ∃ first,
        l.offset text ≤ first ∧ Trivia (text.drop (l.offset text)) (text.drop first) ∧
        AtToken (text.drop first) ∧ t.pos = text.positionAt first ∧
        if t.kind = .eof then first = text.length else first < l'.offset text) ∧
      (∀ e l', l.nextToken = (.error e, l') → e.Marks (.ofOffset text (l'.offset text))) ∧
      ((∀ k < n, ∃ t, (start.asked k).nextToken.1 = .ok t) →
        ∀ ch p l', l.nextToken = (.error (.unexpectedCharacter ch p), l') →
          ∃ before behind : String, source = before ++ String.singleton ch ++ behind ∧
            p = text.positionAt (Text.ofString before).length) := by
  intro text start l
  have hl : (Cursor.ofText text).Reaches l.scanner.cursor := reaches_asked text table limit n
  refine ⟨hl.eq_ofOffset, fun t l' => first_of_nextToken hl, ?_, ?_⟩
  · intro e l' h
    obtain ⟨hcursor, hmarks⟩ := marks_of_nextToken hl h
    rw [← hcursor]
    exact hmarks
  · intro hfirst ch p l' h
    obtain ⟨hcursor, -, -, hp⟩ := marks_of_nextToken hl h
    obtain ⟨before, behind, hsource, happend⟩ :=
      exists_char_of_unexpected (aligned_asked text table limit hfirst) h
    have hoffset : l'.offset text = (Text.ofString before).length := by
      have hsum := congrArg List.length happend
      rw [List.length_append] at hsum
      exact Nat.sub_eq_of_eq_add hsum
    refine ⟨before, behind, hsource, ?_⟩
    rw [hp, hcursor, hoffset]
    rfl

/-- After the first error the cursor may be within a character: here the bound cuts `é`, and what is
unexpected then is its second byte. -/
example :
    let l := ofText (Text.ofString "'é") (.empty .hashOnly) 2
    l.nextToken.1 = .error (.tooLong ⟨1, 3⟩) ∧
      (l.asked 1).nextToken.1 = .error (.unexpectedCharacter '©' ⟨1, 3⟩) := by
  decide

end Lexer

end ScriptLang
