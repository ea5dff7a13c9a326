import ScriptLang.CommandLine.Execution
import ScriptLang.Proofs.Parser.Correctness
import ScriptLang.Proofs.Parser.Simulation

/-!
# Pulling tokens and reading them all

`Lexer.tokenize` reads a whole source, and the parser pulls one token after the other and stops at
the first that it rejects.  Both ask the same lexer: `Yields l ts l'` says that `l` gives the tokens
`ts` one by one and is `l'` after them.  What the parser has pulled at any time is such a list, so
it is the beginning of what a reading of everything gives: each token is pulled once and in order.

The parser is followed by `pulling`, a simulation of a run beside itself whose worlds are the tokens
pulled so far.

* `Lexer.tokenize_yields`: `tokenize` gives what the lexer yields up to `eof` or up to an error.
* `Parser.parseProgram_pulls`: a program is made of tokens that were pulled, and a failure comes
  from the lexer or from a token that was pulled.
* **Lazy and eager reading agree** (`Program.parse_agrees_with_tokenize`).
-/

namespace ScriptLang

namespace Lexer

/-! ### What a lexer yields -/

/-- `l` gives the tokens `ts` one after the other, `eof` at most as the last, and is then `l'`. -/
inductive Yields : Lexer → List Token → Lexer → Prop where
  | nil (l : Lexer) : Yields l [] l
  | cons {l l₁ l' : Lexer} {t : Token} {ts : List Token} (h : l.nextToken = (.ok t, l₁))
      (hend : t.kind = .eof → ts = []) (hs : Yields l₁ ts l') : Yields l (t :: ts) l'

namespace Yields

variable {l l' l₁ l₂ : Lexer} {t : Token} {ts us : List Token} {e : LexError}

/-- One more token, if the end has not been seen. -/
theorem concat (h : Yields l ts l₁) (hne : ∀ t ∈ ts, t.kind ≠ .eof)
    (ht : l₁.nextToken = (.ok t, l₂)) : Yields l (ts ++ [t]) l₂ := by
  induction h with
  | nil l => exact .cons ht (fun _ => rfl) (.nil l₂)
  | cons h hend _ ih =>
      refine .cons h (fun heof => absurd heof (hne _ (List.mem_cons_self ..))) ?_
      exact ih (fun u hu => hne u (List.mem_cons_of_mem _ hu)) ht

/-- A reading of everything fails where the lexer does. -/
theorem tokenize_of_error (h : Yields l ts l₁) (hne : ∀ t ∈ ts, t.kind ≠ .eof)
    (he : l₁.nextToken = (.error e, l₂)) : l.tokenize.1 = .error e := by
  induction h with
  | nil l => rw [tokenize_eq, he]
  | @cons l l₁ l' t ts h _ _ ih =>
      have htail := ih (fun u hu => hne u (List.mem_cons_of_mem _ hu)) he
      rw [tokenize_eq, h]
      dsimp only
      rw [if_neg (hne t (List.mem_cons_self ..)), htail]
      rfl

/-- The lexer yields in one way only: what comes out first is the beginning of what comes out up to
`eof` or up to an error. -/
theorem isPrefix (h : Yields l ts l₁) (h' : Yields l us l₂)
    (hend : (∃ t ∈ us, t.kind = .eof) ∨ ∃ e l₃, l₂.nextToken = (.error e, l₃)) : ts <+: us := by
  induction h generalizing us with
  | nil l => exact List.nil_prefix
  | @cons l l₁' l' t ts h hlast _ ih =>
      cases h' with
      | nil =>
          rcases hend with ⟨_, hmem, -⟩ | ⟨e, l₃, he⟩
          · cases hmem
          · rw [h] at he
            cases he
      | @cons _ _ _ _ us hu _ hus =>
          rw [h] at hu
          cases hu
          refine (List.prefix_cons_inj t).mpr ?_
          by_cases ht : t.kind = .eof
          · rw [hlast ht]
            exact List.nil_prefix
          · refine ih hus (hend.imp_left ?_)
            rintro ⟨u, hmem, hu⟩
            rcases List.mem_cons.mp hmem with rfl | hmem
            · exact absurd hu ht
            · exact ⟨u, hmem, hu⟩

end Yields

/-- **Reading everything** gives what the lexer yields up to `eof`, or the error that stops it. -/
theorem tokenize_yields (l : Lexer) : ∃ ts l₁, Yields l ts l₁ ∧
    match l.tokenize with
    | (.ok us, _) => us = ts ∧ ∃ t ∈ ts, t.kind = .eof
    | (.error e, _) => (∀ t ∈ ts, t.kind ≠ .eof) ∧ ∃ l₂, l₁.nextToken = (.error e, l₂) := by
  fun_induction tokenize l with
  | case1 l e l' h => exact ⟨[], l, .nil l, List.forall_mem_nil _, l', h⟩
  | case2 l t l' h ht =>
      exact ⟨[t], l', .cons h (fun _ => rfl) (.nil l'), rfl, t, List.mem_singleton_self t, ht⟩
  | case3 l t l' h ht us l'' hus ih =>
      obtain ⟨ts, l₁, hyields, hr⟩ := ih
      rw [hus] at hr
      obtain ⟨rfl, u, hmem, hu⟩ := hr
      exact ⟨t :: us, l₁, .cons h (fun heof => absurd heof ht) hyields, rfl, u,
        List.mem_cons_of_mem _ hmem, hu⟩
  | case4 l t l' h ht e l'' he ih =>
      obtain ⟨ts, l₁, hyields, hr⟩ := ih
      rw [he] at hr
      refine ⟨t :: ts, l₁, .cons h (fun heof => absurd heof ht) hyields, ?_, hr.2⟩
      exact List.forall_mem_cons.mpr ⟨ht, hr.1⟩

/-- Whatever a lexer yields first is in what a reading of everything gives. -/
theorem Yields.mem_of_tokenize {l l₁ l' : Lexer} {ts us : List Token} {t : Token}
    (h : Yields l ts l₁) (hus : l.tokenize = (.ok us, l')) (ht : t ∈ ts) : t ∈ us := by
  obtain ⟨vs, l₂, hvs, hr⟩ := l.tokenize_yields
  rw [hus] at hr
  obtain ⟨rfl, hend⟩ := hr
  exact (h.isPrefix hvs (.inl hend)).subset ht

end Lexer

namespace Parser

open Lexer (Yields)

/-! ### A run that remembers its tokens -/

/-- Why the parser stopped after it had pulled the tokens `pulled`, with the lexer now at `l`: the
lexer fails, or the parser did not accept one of the tokens. -/
inductive Explained (l : Lexer) (pulled : List Token) : ParseError → Prop where
  | lex {l' : Lexer} {e : LexError} (hne : ∀ t ∈ pulled, t.kind ≠ .eof)
      (he : l.nextToken = (.error e, l')) : Explained l pulled (.lex e)
  | expected {t : Token} (ht : t ∈ pulled) (x : Expectation) :
      Explained l pulled (.expected x t.kind t.pos)
  | unrecognised {t : Token} (ht : t ∈ pulled) : Explained l pulled (.unrecognised t.pos)

/-- The parser `p` has pulled `pulled` from `l`.  The token ahead is one of them, and the end of the
source stays ahead. -/
structure Pulled (l : Lexer) (pulled : List Token) (p : Parser) : Prop where
  yields : Yields l pulled p.lexer
  ahead : ∀ t, p.lookahead = some t → t ∈ pulled
  eof : ∀ t ∈ pulled, t.kind = .eof → p.lookahead = some t

/-- A run beside itself, in the worlds of the tokens pulled from `l`. -/
def pulling (l : Lexer) : Simulation (List Token) where
  later := (· <+: ·)
  state pulled p q := p = q ∧ Pulled l pulled p
  token pulled t u := t = u ∧ t ∈ pulled
  failed pulled x y := x = y ∧ ∃ l', Yields l pulled l' ∧ Explained l' pulled x.1

variable {l : Lexer} {pulled : List Token} {p : Parser}

/-- The end of the source stays ahead, so if nothing is ahead it was not pulled. -/
theorem Pulled.ne_eof (h : Pulled l pulled p) (hp : p.lookahead = none) :
    ∀ t ∈ pulled, t.kind ≠ .eof := by
  intro t ht heof
  have hsome := h.eof t ht heof
  rw [hp] at hsome
  cases hsome

/-- Pulling a token adds it to those pulled. -/
theorem Pulled.pull (h : Pulled l pulled p) (hp : p.lookahead = none) :
    (pulling l).Ends pulled (Parser.pull p) (Parser.pull p) := by
  have hne := h.ne_eof hp
  unfold Parser.pull
  cases hn : p.lexer.nextToken with
  | mk r l' =>
      cases r with
      | error e => exact .failure (List.prefix_refl _) ⟨rfl, _, h.yields, .lex hne hn⟩
      | ok t =>
          have hmem : t ∈ pulled ++ [t] := List.mem_append_right _ (List.mem_singleton_self t)
          refine .answer (List.prefix_append pulled [t]) ⟨rfl, h.yields.concat hne hn, ?_, ?_⟩
            (.of_rel ⟨rfl, hmem⟩)
          · rintro _ ⟨⟩
            exact hmem
          · intro u hu heof
            rcases List.mem_append.mp hu with hu | hu
            · exact absurd heof (hne u hu)
            · rw [List.mem_singleton.mp hu]

theorem Pulled.drop (h : Pulled l pulled p) {t : Token} (hp : p.lookahead = some t)
    (ht : t.kind ≠ .eof) : Pulled l pulled { p with lookahead := none } := by
  refine ⟨h.yields, nofun, fun u hu heof => ?_⟩
  have hsome := h.eof u hu heof
  rw [hp] at hsome
  cases hsome
  exact absurd heof ht

/-- A parser pulls from its lexer only, and rejects at tokens it has pulled. -/
theorem sound_pulling (l : Lexer) : (pulling l).Sound where
  refl := List.prefix_refl
  trans := List.IsPrefix.trans
  mono := fun hw ht => ⟨ht.1, hw.subset ht.2⟩
  kind := fun ht => congrArg Token.kind ht.1
  pos := fun ht => congrArg Token.pos ht.1
  remaining := fun hs => congrArg Parser.remaining hs.1
  lookahead := by
    rintro pulled p _ ⟨rfl, h⟩
    cases hp : p.lookahead with
    | none => exact .inl ⟨rfl, rfl⟩
    | some t => exact .inr ⟨t, t, rfl, rfl, rfl, h.ahead t hp⟩
  pull := by
    rintro pulled p _ ⟨rfl, h⟩ hp -
    exact h.pull hp
  drop := by
    rintro pulled p _ t u ⟨rfl, h⟩ hp - ht
    exact ⟨rfl, h.drop hp ht⟩
  expected := by
    rintro pulled p _ t u x ⟨rfl, h⟩ hp - -
    exact ⟨rfl, _, h.yields, .expected (h.ahead t hp) x⟩
  unrecognised := by
    rintro pulled p _ t u ⟨rfl, h⟩ hp - -
    exact ⟨rfl, _, h.yields, .unrecognised (h.ahead t hp)⟩

/-- **A whole run.**  The tokens of a program were all pulled, and a failure is explained by what
was pulled before it. -/
theorem parseProgram_pulls (l : Lexer) : ∃ pulled l₁, Yields l pulled l₁ ∧
    match parseProgram (ofLexer l) with
    | (.ok prog, _) => ∀ t ∈ prog.tokens, t ∈ pulled
    | (.error e, _) => Explained l₁ pulled e := by
  have hstart : (pulling l).state [] (ofLexer l) (ofLexer l) := ⟨rfl, .nil l, nofun, nofun⟩
  rcases (sound_pulling l).parseProgram hstart with
    ⟨pulled, prog, prog', p, q, hp, hq, hs, ha⟩ | ⟨pulled, e, f, p, q, hp, -, -, l₁, hyields, he⟩
  · refine ⟨pulled, p.lexer, hs.2.yields, ?_⟩
    rw [hp] at hq ⊢
    cases hq
    exact prog.mem_of_alike ha fun t u ht => ht
  · refine ⟨pulled, l₁, hyields, ?_⟩
    rw [hp]
    exact he

end Parser

open Lexer (Yields)

/-! ### Lazy and eager -/

/-- The tokens of a program are among those of its source. -/
theorem Program.mem_tokenize_of_parse {source : Text} {options : LexerOptions} {prog : Program}
    {table : Intern.Table} (h : Program.parse source options = .ok (prog, table)) :
    ∃ tokens l, (Lexer.start source options).tokenize = (.ok tokens, l) ∧ l.table = table ∧
      ∀ t ∈ prog.tokens, t ∈ tokens := by
  obtain ⟨tokens, l, htokens, htable, -⟩ := Program.programAt_of_parse h
  obtain ⟨pulled, l₁, hyields, hr⟩ := Parser.parseProgram_pulls (.start source options)
  refine ⟨tokens, l, htokens, htable, fun t ht => hyields.mem_of_tokenize htokens ?_⟩
  unfold Program.parse Reading.source at h
  generalize Parser.parseProgram (.ofLexer (.start source options)) = r at h hr
  obtain ⟨_ | _, p⟩ := r <;> cases h
  exact hr t ht

/-- An error is explained by what was pulled. -/
theorem Program.explained_of_parse {source : Text} {options : LexerOptions} {e : ParseError}
    (h : Program.parse source options = .error e) :
    ∃ pulled l, Yields (.start source options) pulled l ∧ Parser.Explained l pulled e := by
  obtain ⟨pulled, l, hyields, hr⟩ := Parser.parseProgram_pulls (.start source options)
  refine ⟨pulled, l, hyields, ?_⟩
  unfold Program.parse Reading.source at h
  generalize Parser.parseProgram (.ofLexer (.start source options)) = r at h hr
  obtain ⟨_ | _, p⟩ := r <;> cases h
  exact hr

/-- A source without tokens is no program: the parser meets the error of the lexer, or rejects a
token before it. -/
theorem Program.parse_of_tokenize_error {source : Text} {options : LexerOptions} {e : LexError}
    {l : Lexer} (h : (Lexer.start source options).tokenize = (.error e, l)) :
    ∃ before l₁ l₂, Yields (.start source options) before l₁ ∧ (∀ t ∈ before, t.kind ≠ .eof) ∧
      l₁.nextToken = (.error e, l₂) ∧
      (Program.parse source options = .error (.lex e) ∨
        ∃ t ∈ before, (∃ x, Program.parse source options = .error (.expected x t.kind t.pos)) ∨
          Program.parse source options = .error (.unrecognised t.pos)) := by
  obtain ⟨before, l₁, hbefore, hr⟩ := Lexer.tokenize_yields (.start source options)
  rw [h] at hr
  obtain ⟨hne, l₂, he⟩ := hr
  refine ⟨before, l₁, l₂, hbefore, hne, he, ?_⟩
  cases hparse : Program.parse source options with
  | ok r =>
      obtain ⟨tokens, l', htokens, -⟩ := Program.mem_tokenize_of_parse hparse
      rw [h] at htokens
      cases htokens
  | error err =>
      obtain ⟨pulled, l', hyields, hexplained⟩ := Program.explained_of_parse hparse
      have hsub := (hyields.isPrefix hbefore (.inr ⟨e, l₂, he⟩)).subset
      cases hexplained with
      | lex hne he' =>
          have hfirst := hyields.tokenize_of_error hne he'
          rw [h] at hfirst
          cases hfirst
          exact .inl rfl
      | @expected t ht x => exact .inr ⟨t, hsub ht, .inl ⟨x, rfl⟩⟩
      | @unrecognised t ht => exact .inr ⟨t, hsub ht, .inr rfl⟩

/-- A source that can be read to its end is not refused with a lexical error. -/
theorem Program.parse_ne_lex {source : Text} {options : LexerOptions} {tokens : List Token}
    {l : Lexer} (h : (Lexer.start source options).tokenize = (.ok tokens, l)) (e : LexError) :
    Program.parse source options ≠ .error (.lex e) := by
  intro hparse
  obtain ⟨pulled, l', hyields, hexplained⟩ := Program.explained_of_parse hparse
  cases hexplained with
  | lex hne he =>
      have hfirst := hyields.tokenize_of_error hne he
      rw [h] at hfirst
      cases hfirst

/-- A file that passes a check has a token listing. -/
theorem Command.exitCode_tokens_of_check {path : String} {options : LexerOptions}
    {content : Except ReadFailure ByteArray}
    (h : (Command.check.onFile path options content).exitCode = 0) :
    (Command.tokens.onFile path options content).exitCode = 0 := by
  unfold Command.onFile at *
  cases content with
  | error e => cases h
  | ok bytes =>
      dsimp only at *
      split at h
      next hvalid =>
        rw [if_pos hvalid]
        unfold Command.onSource at *
        dsimp only at *
        split at h
        next prog table hparse =>
          obtain ⟨tokens, l, htokens, -⟩ := Program.mem_tokenize_of_parse hparse
          rw [htokens]
          rfl
        next => cases h
      next => cases h

/-- **Lazy and eager reading agree**, for every source and all options.

* A source that is a program can be read as a whole, which interns the same texts and gives all the
  tokens of the program.
* If reading the whole source fails, parsing fails: with the error of the lexer, or at a token that
  the lexer yields before it.
* If reading the whole source succeeds, parsing fails with no lexical error.
* A file that passes a check has a token listing. -/
theorem Program.parse_agrees_with_tokenize (source : Text) (options : LexerOptions) :
    (∀ prog table, Program.parse source options = .ok (prog, table) →
      ∃ tokens l, (Lexer.start source options).tokenize = (.ok tokens, l) ∧ l.table = table ∧
        ∀ t ∈ prog.tokens, t ∈ tokens) ∧
    (∀ e l, (Lexer.start source options).tokenize = (.error e, l) →
      ∃ before l₁ l₂, Yields (.start source options) before l₁ ∧ (∀ t ∈ before, t.kind ≠ .eof) ∧
        l₁.nextToken = (.error e, l₂) ∧
        (Program.parse source options = .error (.lex e) ∨
          ∃ t ∈ before, (∃ x, Program.parse source options = .error (.expected x t.kind t.pos)) ∨
            Program.parse source options = .error (.unrecognised t.pos))) ∧
    (∀ tokens l, (Lexer.start source options).tokenize = (.ok tokens, l) →
      ∀ e, Program.parse source options ≠ .error (.lex e)) ∧
    ∀ path content, (Command.check.onFile path options content).exitCode = 0 →
      (Command.tokens.onFile path options content).exitCode = 0 :=
  ⟨fun _ _ h => mem_tokenize_of_parse h, fun _ _ h => parse_of_tokenize_error h,
    fun _ _ h => parse_ne_lex h, fun _ _ h => Command.exitCode_tokens_of_check h⟩

-- The parser may reject a token before it comes to what is no token.
example :
    (Lexer.start (Text.ofString ") @") {}).tokenize.1 = .error (.unexpectedCharacter '@' ⟨1, 3⟩) ∧
      Program.parse (Text.ofString ") @") {} = .error (.unrecognised ⟨1, 1⟩) := by
  constructor <;> cbv

end ScriptLang
