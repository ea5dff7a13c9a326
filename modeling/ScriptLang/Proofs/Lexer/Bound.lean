import ScriptLang.Proofs.Lexer.Reports

/-!
# The bound on texts only rejects

The bound of a scanner is looked at for one purpose: to refuse a byte.  So a run with a wider bound
goes in step with a run with a narrow one until the narrow one refuses a byte, and if it never does,
they are the same run (`Scanner.Widens`).

What is refused can be told from the source.  `Occurs limit 0 source os` says which lexemes stand
where in a source, and the narrow run fails within the first of them whose stored bytes are over its
bound.

* `Lexer.tokenize_widens`: a run under a wider bound is the same run, unless a text is too long.
* `Scanner.overflows_lexeme`: a lexeme over the bound is refused within its bytes.
* `Lexer.tokenize_refusesFirst`: a run stops at the first lexeme over its bound.
* **The bound only rejects** (`Lexer.tokenize_bound`).
-/

namespace ScriptLang

/-! ### A wider bound -/

/-- What has found room finds it under a wider bound. -/
theorem store_of_le {n m : Nat} {keep : UInt8 → Bool} {buffer run : Text} (hle : n ≤ m)
    (h : (store n keep buffer run).2 = []) :
    store m keep buffer run = store n keep buffer run := by
  fun_induction store n keep buffer run with
  | case1 => rfl
  | case2 buffer b run hkeep hroom ih =>
      rw [store, if_pos hkeep, if_pos (Nat.lt_of_lt_of_le hroom hle)]
      exact ih h
  | case3 => cases h
  | case4 buffer b run hkeep ih =>
      rw [store, if_neg hkeep]
      exact ih h

namespace Scanner

variable {α β : Type} {m : Nat}

/-- The scanner with another bound. -/
def withLimit (s : Scanner) (m : Nat) : Scanner := { s with limit := m }

/-- From every scanner with a bound of at most `m`, `x` finds a text too long, or does what it does
with the bound `m`. -/
def Widens (m : Nat) (x : Scan α) : Prop :=
  ∀ s, s.limit ≤ m → (∃ p, (x s).1 = .error (.tooLong p)) ∨
    (x s).2.limit = s.limit ∧ x (s.withLimit m) = ((x s).1, (x s).2.withLimit m)

/-- Two readers widen one after the other, because the first leaves the bound as it is. -/
theorem Widens.bind {x : Scan α} {f : α → Scan β} (hx : Widens m x) (hf : ∀ a, Widens m (f a)) :
    Widens m (x >>= f) := by
  intro s hs
  have hstep := hx s hs
  simp only [Attempt.bind_apply]
  generalize x s = r at hstep
  obtain ⟨e | a, s'⟩ := r
  · rcases hstep with ⟨p, hp⟩ | ⟨hlimit, heq⟩
    · cases hp
      exact .inl ⟨p, rfl⟩
    · exact .inr ⟨hlimit, by rw [heq]⟩
  · rcases hstep with ⟨p, hp⟩ | ⟨hlimit, heq⟩
    · cases hp
    · -- The bound is the same after the first step, so the second may go on from there.
      rcases hf a s' (Nat.le_trans (Nat.le_of_eq hlimit) hs) with hlong | ⟨hlimit', heq'⟩
      · exact .inl hlong
      · exact .inr ⟨hlimit'.trans hlimit, by rw [heq]; exact heq'⟩

/-- A byte that finds room finds it under a wider bound. -/
theorem widens_write (b : UInt8) : Widens m (write b) := by
  intro s hs
  by_cases hroom : s.buffer.length < s.limit
  · refine .inr ?_
    have hwider : s.buffer.length < m := Nat.lt_of_lt_of_le hroom hs
    simp [write, withLimit, hroom, hwider]
  · refine .inl ⟨s.cursor.pos, ?_⟩
    rw [write, if_neg hroom]

/-- Bytes that all find room find it under a wider bound, and otherwise the run fails. -/
theorem widens_copy (keep : UInt8 → Bool) (run : Text) : Widens m (copy keep run) := by
  intro s hs
  by_cases hleft : (store s.limit keep s.buffer run).2 = []
  · refine .inr ⟨rfl, ?_⟩
    simp only [copy, withLimit, store_of_le hs hleft]
  · exact .inl ⟨_, if_neg (by simpa using hleft)⟩

/-- **Every reader widens.**  Only two look at the bound. -/
theorem readers_widens : Readers (Widens m) where
  bind := .bind
  pure _ _ _ := .inr ⟨rfl, rfl⟩
  fail _ _ _ := .inr ⟨rfl, rfl⟩
  remaining _ _ := .inr ⟨rfl, rfl⟩
  position _ _ := .inr ⟨rfl, rfl⟩
  skip _ _ _ := .inr ⟨rfl, rfl⟩
  skipTrivia _ _ := .inr ⟨rfl, rfl⟩
  copy := widens_copy
  write := widens_write
  take _ _ := .inr ⟨rfl, rfl⟩

end Scanner

namespace Lexer

variable {l : Lexer} {m : Nat}

/-- The lexer with another bound. -/
def withLimit (l : Lexer) (m : Nat) : Lexer := { l with scanner := l.scanner.withLimit m }

/-- A token under a wider bound is the same token, unless its text is too long. -/
theorem nextToken_widens (hl : l.scanner.limit ≤ m) :
    (∃ p, l.nextToken.1 = .error (.tooLong p)) ∨
      l.nextToken.2.scanner.limit = l.scanner.limit ∧
        (l.withLimit m).nextToken = (l.nextToken.1, l.nextToken.2.withLimit m) := by
  have hnext := Scanner.readers_widens.next l.scanner hl
  simp only [nextToken, Attempt.bind_apply, lexeme, withLimit]
  generalize l.scanner.next = r at hnext
  obtain ⟨e | x, s⟩ := r
  · rcases hnext with ⟨p, hp⟩ | ⟨hlimit, heq⟩
    · cases hp
      exact .inl ⟨p, rfl⟩
    · rw [heq]
      exact .inr ⟨hlimit, rfl⟩
  · rcases hnext with ⟨p, hp⟩ | ⟨hlimit, heq⟩
    · cases hp
    · rw [heq]
      dsimp only [internLexeme]
      cases x.text <;> exact .inr ⟨hlimit, rfl⟩

/-- **A run under a wider bound** is the same run, unless a text is too long. -/
theorem tokenize_widens (hl : l.scanner.limit ≤ m) :
    (∃ p, l.tokenize.1 = .error (.tooLong p)) ∨
      (l.withLimit m).tokenize = (l.tokenize.1, l.tokenize.2.withLimit m) := by
  induction hremaining : l.remaining using Nat.strongRecOn generalizing l with
  | _ n ih =>
      have hnext := nextToken_widens hl
      rw [tokenize_eq l, tokenize_eq (l.withLimit m)]
      rcases h : l.nextToken with ⟨e | t, l'⟩ <;> rw [h] at hnext
      · rcases hnext with ⟨p, hp⟩ | ⟨-, heq⟩
        · cases hp
          exact .inl ⟨p, rfl⟩
        · rw [heq]
          exact .inr rfl
      · obtain ⟨hlimit, heq⟩ := hnext.resolve_left nofun
        rw [heq]
        by_cases ht : t.kind = .eof
        · simp only [if_pos ht]
          exact .inr rfl
        · simp only [if_neg ht]
          have hless := length_nextToken_lt h ht
          rcases ih _ (hremaining ▸ hless) (Nat.le_trans (Nat.le_of_eq hlimit) hl) rfl with
            ⟨p, hp⟩ | hrest
          · exact .inl ⟨p, by rw [hp]; rfl⟩
          · exact .inr (by rw [hrest])

end Lexer

/-! ### A lexeme over the bound -/

namespace Scanner

variable {α β : Type} {m n k : Nat} {run rest t : Text} {b : UInt8} {p : Position}

/-- From `s`, `x` finds a text too long and stops before `k` more bytes are read. -/
def Overflows (x : Scan α) (s : Scanner) (k : Nat) : Prop :=
  ∃ i < k, ∃ q s', x s = (.error (.tooLong q), s') ∧ s'.cursor.rest = s.cursor.rest.drop i

section Overflows

variable {x : Scan α} {s s' : Scanner} {a : α}

theorem Overflows.bind (h : Overflows x s k) (f : α → Scan β) : Overflows (x >>= f) s k := by
  obtain ⟨i, hi, q, s', hx, hrest⟩ := h
  exact ⟨i, hi, q, s', by rw [Attempt.bind_apply, hx], hrest⟩

theorem Overflows.mono (h : Overflows x s n) (hle : n ≤ k) : Overflows x s k := by
  obtain ⟨i, hi, hx⟩ := h
  exact ⟨i, Nat.lt_of_lt_of_le hi hle, hx⟩

/-- What reads nothing may come before. -/
theorem Overflows.after {f : α → Scan β} (hx : x s = (.ok a, s')) (hs : s'.cursor = s.cursor)
    (h : Overflows (f a) s' k) : Overflows (x >>= f) s k := by
  unfold Overflows
  rw [Attempt.bind_apply, hx, ← hs]
  exact h

/-- Bytes passed over before count for the place of the byte that is refused. -/
theorem Overflows.after_skip {f : Unit → Scan β}
    (h : Overflows (f ()) { s with cursor := s.cursor.skip n } k) :
    Overflows (skip n >>= f) s (n + k) := by
  obtain ⟨i, hi, q, s', hx, hrest⟩ := h
  exact ⟨n + i, Nat.add_lt_add_left hi n, q, s', hx, by rw [hrest]; exact List.drop_drop⟩

end Overflows

/-- Copying stops at the first byte that finds no room, which is one of those copied. -/
theorem overflows_copy {keep : UInt8 → Bool} {c : Cursor} {buffer : Text}
    (hbuffer : buffer.length ≤ n) (hlong : n < buffer.length + (run.filter keep).length) :
    Overflows (copy keep run) ⟨c, buffer, n⟩ run.length := by
  have hleft := store_ne_nil hbuffer hlong
  have hsuffix := (store_suffix n keep buffer run).length_le
  have hpos := List.length_pos_iff.mpr hleft
  exact ⟨run.length - (store n keep buffer run).2.length, by omega, _, _,
    Prod.ext (if_neg (by simpa using hleft)) rfl, rfl⟩

/-- A word over the bound is refused at one of its letters. -/
theorem overflows_word (hrun : run.all isWordByte) (hrest : stopsAt isWordByte rest)
    (hlong : n < run.length) : Overflows word ⟨⟨run ++ rest, p⟩, [], n⟩ run.length := by
  refine .after rfl rfl ?_
  rw [takeWhile_append_stopsAt hrun hrest]
  refine (overflows_copy (Nat.zero_le n) ?_).bind _
  rw [filter_true, List.length_nil, Nat.zero_add]
  exact hlong

/-- A number over the bound is refused at one of its bytes, for which its separators do not
count. -/
theorem overflows_number (hrun : numberRun false (run ++ rest) = run)
    (hlong : n < (unseparated run).length) :
    Overflows number ⟨⟨run ++ rest, p⟩, [], n⟩ run.length := by
  refine .after rfl rfl ?_
  rw [hrun]
  refine (overflows_copy (Nat.zero_le n) ?_).bind _
  rw [List.length_nil, Nat.zero_add]
  exact hlong

/-- A string is refused at its mark, for which the byte behind the quote is blamed, or in its
body. -/
theorem overflows_string {quote : UInt8} {body : Text} (hbody : body.all (isStringByte quote))
    (hrest : stopsAt (isStringByte quote) rest) (hlong : n < (stringMark :: body).length) :
    Overflows (string quote) ⟨⟨quote :: (body ++ rest), p⟩, [], n⟩ (1 + (body.length + 1)) := by
  refine .after_skip ?_
  by_cases hroom : 0 < n
  · refine .after (if_pos hroom) rfl (.after rfl rfl ?_)
    simp only [Cursor.skip, List.drop_succ_cons, List.drop_zero,
      takeWhile_append_stopsAt hbody hrest]
    refine ((overflows_copy hroom ?_).bind _).mono (Nat.le_succ _)
    rw [filter_true, List.nil_append, List.length_singleton, Nat.add_comm]
    exact hlong
  · exact .bind ⟨0, Nat.succ_pos _, _, _, if_neg hroom, rfl⟩ _

/-- A lexeme of letters, be it a name or a keyword, is read as a word. -/
theorem overflows_letters (hletters : isLetters run) (hrest : stopsAt isWordByte rest)
    (hlong : n < run.length) (hsplit : b :: t = run ++ rest) (p : Position) :
    Overflows (lexeme b t p) ⟨⟨b :: t, p⟩, [], n⟩ run.length := by
  simp only [isLetters, Bool.and_eq_true] at hletters
  have hletter := first_of_append hletters.1 hsplit
  obtain ⟨-, hquote, hdigit⟩ := beginsToken_of_isLetter hletter
  simp only [lexeme, hquote, hdigit, hletter, Bool.false_eq_true, if_false, if_true]
  rw [hsplit]
  exact (overflows_word hletters.2 hrest hlong).bind _

/-- **A lexeme over the bound** is refused within its bytes. -/
theorem overflows_lexeme {w : Word} (h : Lexes m run rest w) (hlong : n < w.stored.length)
    (hsplit : b :: t = run ++ rest) (p : Position) :
    Overflows (lexeme b t p) ⟨⟨b :: t, p⟩, [], n⟩ run.length := by
  cases h with
  | @operator kind _ hkind =>
      -- Nothing is stored of an operator.
      have hwords : ∀ kind ∈ TokenKind.operators, kind ∉ TokenKind.keywords := by decide
      rw [Word.stored, if_neg (hwords kind hkind)] at hlong
      cases hlong
  | @keyword kind _ hkind _ hrest =>
      rw [Word.stored, if_pos hkind] at hlong
      exact overflows_letters (isLetters_keyword kind hkind) hrest hlong hsplit p
  | identifier hrun _ _ hrest => exact overflows_letters hrun hrest hlong hsplit p
  | number hrun _ hrest =>
      simp only [isFigures, Bool.and_eq_true, decide_eq_true_eq] at hrun
      obtain ⟨⟨hdigit, hall⟩, hcount⟩ := hrun
      replace hdigit := first_of_append hdigit hsplit
      obtain ⟨hstop, hpoint⟩ := stopsAt_or.mp hrest
      have hrun := (numberRun_append_eq_iff hpoint false).mpr ⟨hall, hcount, hstop⟩
      simp only [lexeme, beginsToken_of_isDigit hdigit, hdigit, Bool.false_eq_true, if_false,
        if_true]
      rw [hsplit]
      exact (overflows_number hrun hlong).bind _
  | @string quote body _ hquote hbody =>
      obtain ⟨rfl, rfl⟩ : b = quote ∧ t = body ++ quote :: rest := by simpa using hsplit
      have hrest : stopsAt (isStringByte b) (b :: rest) := by simp [isStringByte]
      have hlength : 1 + (body.length + 1) = (b :: (body ++ [b])).length := by
        simp [Nat.add_comm]
      simp only [lexeme, hquote, if_true, ← hlength]
      exact (overflows_string hbody hrest hlong).bind _

end Scanner

/-! ### The lexemes of a source -/

/-- Where a lexeme stands: the offset of its first byte, its bytes and its word. -/
structure Occurrence where
  offset : Nat
  run : Text
  word : Word

/-- A text at an offset is trivia and lexemes that stand where they are said to, each with a stored
text of at most `limit` bytes. -/
inductive Occurs (limit : Nat) : Nat → Text → List Occurrence → Prop where
  | done {offset : Nat} {t : Text} (htrivia : Trivia t []) : Occurs limit offset t []
  | lexeme {offset : Nat} {gap run rest : Text} {w : Word} {os : List Occurrence}
      (htrivia : Trivia (gap ++ (run ++ rest)) (run ++ rest)) (hlexes : Lexes limit run rest w)
      (hrest : Occurs limit (offset + gap.length + run.length) rest os) :
      Occurs limit offset (gap ++ (run ++ rest)) (⟨offset + gap.length, run, w⟩ :: os)

/-- The lexemes of a splitting stand somewhere. -/
theorem Splits.occurs {limit : Nat} {t : Text} {words : List Word} (h : Splits limit t words)
    (offset : Nat) : ∃ os, Occurs limit offset t os := by
  induction h generalizing offset with
  | done htrivia => exact ⟨[], .done htrivia⟩
  | @lexeme t run rest w words htrivia hlexes _ ih =>
      obtain ⟨gap, rfl⟩ := htrivia.suffix
      obtain ⟨os, hrest⟩ := ih (offset + gap.length + run.length)
      exact ⟨_, .lexeme htrivia hlexes hrest⟩

/-- Lexemes that stand in a text split it under every bound that they keep. -/
theorem Occurs.splits {m n offset : Nat} {t : Text} {os : List Occurrence}
    (h : Occurs m offset t os) (hfits : ∀ o ∈ os, o.word.stored.length ≤ n) :
    ∃ words, Splits n t words := by
  induction h with
  | done htrivia => exact ⟨[], .done htrivia⟩
  | lexeme htrivia hlexes _ ih =>
      obtain ⟨hw, hfits⟩ := List.forall_mem_cons.mp hfits
      obtain ⟨words, hsplits⟩ := ih hfits
      exact ⟨_, .lexeme htrivia (hlexes.of_stored_le hw) hsplits⟩

namespace Lexer

variable {source t gap run rest : Text} {l : Lexer} {m n : Nat} {p : Position} {w : Word}

theorem nextToken_of_error {e : LexError} {s : Scanner} (h : l.scanner.next = (.error e, s)) :
    l.nextToken = (.error e, { l with scanner := s }) := by
  simp only [nextToken, Attempt.bind_apply, lexeme, h]

/-- A lexer that has read `t` is as many bytes ahead. -/
theorem offset_of_append (l' : Lexer) (hl : (Cursor.ofText source).Reaches l.scanner.cursor)
    (h : l.scanner.cursor.rest = t ++ l'.scanner.cursor.rest) :
    l'.offset source = l.offset source + t.length := by
  obtain ⟨before, happend, -⟩ := hl
  have hsource : source.length = (before ++ l.scanner.cursor.rest).length :=
    congrArg List.length happend
  have hrest := congrArg List.length h
  rw [List.length_append] at hsource hrest
  rw [offset, offset, remaining, remaining]
  omega

/-- A lexeme over the bound is refused, at the position of one of its bytes. -/
theorem nextToken_tooLong (hl : (Cursor.ofText source).Reaches l.scanner.cursor)
    (hs : l.scanner = ⟨⟨gap ++ (run ++ rest), p⟩, [], n⟩)
    (htrivia : Trivia (gap ++ (run ++ rest)) (run ++ rest)) (hlexes : Lexes m run rest w)
    (hlong : n < w.stored.length) :
    ∃ i < run.length, ∃ l', l.nextToken =
      (.error (.tooLong (source.positionAt (l.offset source + gap.length + i))), l') := by
  obtain ⟨b, tail, rfl, hb⟩ := hlexes.exists_cons
  have hat : AtToken (b :: tail ++ rest) := fun c hc => by cases hc; exact hb
  obtain ⟨gap', happend, hskip⟩ := Scanner.trivia_after htrivia hat p
  obtain rfl := List.append_cancel_right happend
  obtain ⟨i, hi, q, s', herror, hrest⟩ :=
    Scanner.overflows_lexeme hlexes hlong rfl (p.after gap)
  have hnext : l.scanner.next = (.error (.tooLong q), s') := by
    rw [hs, Scanner.next_of_skipped hskip]
    exact herror
  have htoken := nextToken_of_error hnext
  refine ⟨i, hi, { l with scanner := s' }, htoken.trans ?_⟩
  -- The error is at the cursor, and the cursor has the position of its offset.
  obtain ⟨hcursor, hq⟩ := marks_of_nextToken hl htoken
  have hread : l.scanner.cursor.rest = (gap ++ (b :: tail).take i) ++ s'.cursor.rest := by
    have htake : (b :: tail ++ rest).take i = (b :: tail).take i :=
      List.take_append_of_le_length (Nat.le_of_lt hi)
    rw [hs, hrest, List.append_assoc, ← htake]
    exact congrArg (gap ++ ·) (List.take_append_drop i _).symm
  have hoffset := offset_of_append { l with scanner := s' } hl hread
  rw [List.length_append, List.length_take_of_le (Nat.le_of_lt hi), ← Nat.add_assoc] at hoffset
  have hpos : q = source.positionAt (l.offset source + gap.length + i) := by
    rw [← hoffset]
    exact hq.trans (congrArg Cursor.pos hcursor)
  rw [hpos]

/-- A result that refuses the first of the lexemes whose stored bytes are over the bound `n`, at the
position of one of its bytes. -/
def RefusesFirst (source : Text) (n : Nat) (os : List Occurrence)
    (result : Except LexError (List Token)) : Prop :=
  ∃ before o after i, os = before ++ o :: after ∧
    (∀ v ∈ before, v.word.stored.length ≤ n) ∧ n < o.word.stored.length ∧ i < o.run.length ∧
    result = .error (.tooLong (source.positionAt (o.offset + i)))

/-- **A run stops at the first lexeme over its bound.**  The induction is on the lexemes, and the
offset of the lexer goes along with theirs. -/
theorem tokenize_refusesFirst {offset : Nat} {os : List Occurrence} (h : Occurs m offset t os)
    (hl : (Cursor.ofText source).Reaches l.scanner.cursor)
    (hs : l.scanner = ⟨⟨t, p⟩, [], n⟩) (hoffset : l.offset source = offset)
    (hlong : ¬ ∀ o ∈ os, o.word.stored.length ≤ n) :
    RefusesFirst source n os l.tokenize.1 := by
  induction h generalizing l p with
  | done => exact absurd (List.forall_mem_nil _) hlong
  | @lexeme offset gap run rest w os htrivia hlexes _ ih =>
      by_cases hw : w.stored.length ≤ n
      · have hnext := Scanner.next_of_gap htrivia (hlexes.of_stored_le hw) p
        rw [← hs] at hnext
        have htoken := nextToken_of_lexeme hnext
        let l' : Lexer := { l with
          scanner := ⟨⟨rest, (p.after gap).right run.length⟩, [], n⟩
          table := l.table.internAll w.text.toList }
        have hreaches : (Cursor.ofText source).Reaches l'.scanner.cursor := by
          have hstep := (Scanner.tracks_next l.scanner).1
          rw [hnext] at hstep
          exact hl.trans hstep
        have hread : l.scanner.cursor.rest = (gap ++ run) ++ l'.scanner.cursor.rest := by
          rw [hs, List.append_assoc]
        have hbehind : l'.offset source = offset + gap.length + run.length := by
          rw [offset_of_append l' hl hread, hoffset, List.length_append, ← Nat.add_assoc]
        have hlong' : ¬ ∀ o ∈ os, o.word.stored.length ≤ n :=
          fun hfits => hlong (List.forall_mem_cons.mpr ⟨hw, hfits⟩)
        obtain ⟨before, o, after, i, rfl, hbefore, ho, hi, herror⟩ :=
          ih hreaches rfl hbehind hlong'
        refine ⟨_ :: before, o, after, i, rfl, List.forall_mem_cons.mpr ⟨hw, hbefore⟩, ho, hi, ?_⟩
        rw [tokenize_eq, htoken]
        dsimp only
        rw [if_neg hlexes.kind_ne_eof]
        exact congrArg (Except.map _) herror
      · obtain ⟨i, hi, l', htoken⟩ :=
          nextToken_tooLong hl hs htrivia hlexes (Nat.lt_of_not_le hw)
        refine ⟨[], _, os, i, rfl, List.forall_mem_nil _, Nat.lt_of_not_le hw, hi, ?_⟩
        rw [tokenize_eq, htoken, hoffset]

/-- **The bound only rejects.**  A run that finds no text too long is the same run under any wider
bound: the same tokens or the same error, and the same table.  A source that can be read under some
bound is trivia and lexemes; it is read under `n` just if each of them stores at most `n` bytes, and
otherwise it is refused at a byte of the first that stores more. -/
theorem tokenize_bound (source : Text) (table : Intern.Table) (n m : Nat) :
    let narrow := (ofText source table n).tokenize
    let wide := (ofText source table m).tokenize
    (n ≤ m → (∀ p, narrow.1 ≠ .error (.tooLong p)) →
      wide.1 = narrow.1 ∧ wide.2.table = narrow.2.table) ∧
    ((∃ ts, wide.1 = .ok ts) → ∃ os, Occurs m 0 source os) ∧
    ∀ os, Occurs m 0 source os →
      ((∃ ts, narrow.1 = .ok ts) ↔ ∀ o ∈ os, o.word.stored.length ≤ n) ∧
      ((¬ ∀ o ∈ os, o.word.stored.length ≤ n) → RefusesFirst source n os narrow.1) := by
  intro narrow wide
  refine ⟨fun hle hshort => ?_, fun ⟨ts, hts⟩ => ?_, fun os hos => ?_⟩
  · have hwide : wide = (narrow.1, narrow.2.withLimit m) :=
      (tokenize_widens (l := ofText source table n) hle).resolve_left
        fun ⟨p, hp⟩ => hshort p hp
    rw [hwide]
    exact ⟨rfl, rfl⟩
  · obtain ⟨words, hsplits⟩ :=
      splits_of_tokenize (l := ofText source table m) rfl (Prod.ext hts rfl)
    exact hsplits.occurs 0
  · have hrefuses (hlong : ¬ ∀ o ∈ os, o.word.stored.length ≤ n) :
        RefusesFirst source n os narrow.1 :=
      tokenize_refusesFirst hos (.refl _) rfl (Nat.sub_self _) hlong
    refine ⟨⟨fun ⟨ts, hts⟩ => ?_, fun hfits => ?_⟩, hrefuses⟩
    · by_contra hlong
      obtain ⟨_, _, _, _, -, -, -, -, herror⟩ := hrefuses hlong
      cases hts.symm.trans herror
    · obtain ⟨words, hsplits⟩ := hos.splits hfits
      obtain ⟨xs, e, hlayout⟩ := hsplits.layout ⟨1, 1⟩
      obtain ⟨l', htokens, -⟩ := tokenize_of_layout (l := ofText source table n) hlayout rfl
      exact ⟨_, congrArg Prod.fst htokens⟩

end Lexer

end ScriptLang
