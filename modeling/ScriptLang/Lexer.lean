import ScriptLang.Lexer.Progress

/-!
# The lexer

The lexer is a scanner with an interning table: it reads a lexeme and interns its text, so that the
tokens it yields carry handles.  It can be asked for a token again after an error and after the end
of the source.  `Lexer.next?` is the same as a sequence, which ends after the first error or the
`eof` token, and `Lexer.tokenize` is all of that sequence at once.

* `length_nextToken_lt`: a token other than `eof` takes at least one byte of the source.
-/

namespace ScriptLang

/-- How sources are read: the longest text of a token, in bytes, and the policy of the table. -/
structure LexerOptions where
  bufferLength : Nat := 31
  policy : Intern.Policy := .hashOnly
  deriving DecidableEq, Repr, Inhabited

/-- A scanner, the table its texts go to, and whether the token sequence has ended. -/
structure Lexer where
  scanner : Scanner
  table : Intern.Table
  finished : Bool
  deriving DecidableEq, Repr

namespace Lexer

/-- The lexer at the start of a source, over a table that may already hold texts. -/
def ofText (source : Text) (table : Intern.Table) (bufferLength : Nat) : Lexer :=
  { scanner := .ofText source bufferLength, table := table, finished := false }

/-- The lexer at the start of a source, over an empty table. -/
def start (source : Text) (options : LexerOptions) : Lexer :=
  ofText source (.empty options.policy) options.bufferLength

/-- The number of bytes not yet read. -/
def remaining (l : Lexer) : Nat := l.scanner.cursor.rest.length

/-- Interns the text of a lexeme. -/
def internLexeme (x : Lexeme) : Attempt Lexer LexError Token := fun l =>
  match x.text with
  | none => (.ok { kind := x.kind, value := none, pos := x.pos }, l)
  | some text =>
    let (symbol, table) := l.table.intern text
    (.ok { kind := x.kind, value := some symbol, pos := x.pos }, { l with table := table })

/-- Reads a lexeme with the lexer's scanner. -/
def lexeme : Attempt Lexer LexError Lexeme := fun l =>
  let (result, scanner) := l.scanner.next
  (result, { l with scanner := scanner })

/-- The next token.  At the end of the source this is `eof`, however often it is asked for. -/
def nextToken : Attempt Lexer LexError Token := do
  let x ← lexeme
  internLexeme x

/-- The next token of the sequence that ends after the first error or the `eof` token. -/
def next? (l : Lexer) : Option (Except LexError Token) × Lexer :=
  if l.finished then (none, l)
  else
    let (result, l') := nextToken l
    let finished :=
      match result with
      | .ok t => t.kind == .eof
      | .error _ => true
    (some result, { l' with finished := finished })

/-- A token other than `eof` takes at least one byte of the source. -/
theorem length_nextToken_lt {l l' : Lexer} {t : Token} (h : nextToken l = (.ok t, l'))
    (ht : t.kind ≠ .eof) : l'.remaining < l.remaining := by
  rw [nextToken, Attempt.bind_apply] at h
  simp only [lexeme] at h
  generalize hn : l.scanner.next = r at h
  obtain ⟨_ | x, s⟩ := r
  · simp at h
  · simp only [internLexeme] at h
    split at h
    · simp only [Prod.mk.injEq, Except.ok.injEq] at h
      obtain ⟨rfl, rfl⟩ := h
      exact Scanner.length_next_lt hn ht
    · simp only [Prod.mk.injEq, Except.ok.injEq] at h
      obtain ⟨rfl, rfl⟩ := h
      exact Scanner.length_next_lt hn ht

/-- All tokens from here to the end of the source, the `eof` token included, or the first error. -/
def tokenize (l : Lexer) : Except LexError (List Token) × Lexer :=
  match _h : nextToken l with
  | (.error e, l') => (.error e, { l' with finished := true })
  | (.ok t, l') =>
    if _ht : t.kind = .eof then (.ok [t], { l' with finished := true })
    else
      match tokenize l' with
      | (.ok ts, l'') => (.ok (t :: ts), l'')
      | (.error e, l'') => (.error e, l'')
termination_by l.remaining
decreasing_by exact length_nextToken_lt _h _ht

end Lexer

end ScriptLang
