import Mathlib.Data.List.Forall2
import ScriptLang.Proofs.Intern
import ScriptLang.Proofs.Lexer
import ScriptLang.Proofs.Lexer.Lexemes

/-!
# A source is trivia and lexemes

`Splits limit t words` says that a text can be taken apart into trivia and lexemes, and that the
lexemes are of those words in that order.  The lexer succeeds on just such texts, and its tokens
then denote the words: they have the same kinds, and handles of their texts.

* `Scanner.splits_of_next`, `Scanner.next_of_trivia`, `Scanner.next_of_lexes`: one lexeme with the
  trivia before it.
* `Lexer.tokenize_of_splits`, `Lexer.splits_of_tokenize`: all of them, by induction on the splitting
  and on the reading.
* **Lexing is exact** (`Lexer.tokenize_exact`).
-/

namespace ScriptLang

/-- A text is trivia and lexemes of these words, each with a stored text of at most `limit`
bytes. -/
inductive Splits (limit : Nat) : Text → List Word → Prop where
  | done {t : Text} (htrivia : Trivia t []) : Splits limit t []
  | lexeme {t run rest : Text} {w : Word} {words : List Word} (htrivia : Trivia t (run ++ rest))
      (hlexes : Lexes limit run rest w) (hrest : Splits limit rest words) :
      Splits limit t (w :: words)

/-- A token has the kind of a word and, if the word has a text, the handle of one that agrees with
it. -/
def Token.Denotes (policy : Intern.Policy) (table : Intern.Table) (t : Token) (w : Word) : Prop :=
  t.kind = w.kind ∧
    match w.text with
    | none => t.value = none
    | some text => ∃ symbol stored, t.value = some symbol ∧ table.get? symbol = some stored ∧
        policy.Agrees stored text

/-! ### One lexeme -/

namespace Scanner

variable {limit : Nat} {t run rest : Text}

/-- Behind trivia stands a lexeme or nothing. -/
theorem next_of_skipped {p p' : Position} (h : Cursor.trivia ⟨t, p⟩ = (.ok (), ⟨rest, p'⟩)) :
    next ⟨⟨t, p⟩, [], limit⟩ =
      match rest with
      | [] => (.ok ⟨.eof, none, p'⟩, ⟨⟨[], p'⟩, [], limit⟩)
      | b :: rest => lexeme b rest p' ⟨⟨b :: rest, p'⟩, [], limit⟩ := by
  simp only [next, Attempt.bind_apply, skipTrivia, h, position, remaining]
  cases rest <;> rfl

/-- At the end of a source behind trivia there is nothing but its end. -/
theorem next_of_trivia (h : Trivia t []) (p : Position) :
    ∃ start s, next ⟨⟨t, p⟩, [], limit⟩ = (.ok ⟨.eof, none, start⟩, s) := by
  obtain ⟨p', htrivia⟩ := (Cursor.trivia_eq_ok_iff t p []).mpr ⟨h, nofun⟩
  exact ⟨_, _, next_of_skipped htrivia⟩

/-- A lexeme behind trivia is read as its word. -/
theorem next_of_lexes {w : Word} (h : Trivia t (run ++ rest)) (hlexes : Lexes limit run rest w)
    (p : Position) : ∃ start p', next ⟨⟨t, p⟩, [], limit⟩ =
      (.ok ⟨w.kind, w.text, start⟩, ⟨⟨rest, p'⟩, [], limit⟩) := by
  obtain ⟨b, tail, rfl, hb⟩ := hlexes.exists_cons
  have hat : AtToken (b :: tail ++ rest) := fun c hc => by cases hc; exact hb
  obtain ⟨start, htrivia⟩ := (Cursor.trivia_eq_ok_iff t p _).mpr ⟨h, hat⟩
  exact ⟨start, _, (next_of_skipped htrivia).trans (lexeme_of_lexes hlexes rfl start)⟩

/-- What is read next is the end of the source or a lexeme, behind trivia. -/
theorem splits_of_next {x : Lexeme} {p : Position} {s : Scanner}
    (h : next ⟨⟨t, p⟩, [], limit⟩ = (.ok x, s)) :
    (x.kind = .eof ∧ Trivia t []) ∨
      ∃ run rest p', Trivia t (run ++ rest) ∧ Lexes limit run rest ⟨x.kind, x.text⟩ ∧
        s = ⟨⟨rest, p'⟩, [], limit⟩ := by
  rcases hskip : Cursor.trivia ⟨t, p⟩ with ⟨_ | _, rest, p'⟩
  · simp [next, Attempt.bind_apply, skipTrivia, hskip] at h
  · obtain ⟨htrivia, -⟩ := (Cursor.trivia_eq_ok_iff t p rest).mp ⟨p', hskip⟩
    rw [next_of_skipped hskip] at h
    cases rest with
    | nil =>
        cases h
        exact .inl ⟨rfl, htrivia⟩
    | cons b rest =>
        obtain ⟨run, rest', hsplit, hlexes, hs⟩ := behind_of_lexeme h
        rw [hsplit] at htrivia
        exact .inr ⟨run, rest', _, htrivia, hlexes, hs⟩

end Scanner

/-! ### All lexemes -/

namespace Lexer

/-- A lexeme becomes a token that denotes its word, by the table from then on. -/
theorem nextToken_of_next {l : Lexer} {x : Lexeme} {s : Scanner} (hl : l.table.Hashed)
    (h : l.scanner.next = (.ok x, s)) :
    ∃ t l', l.nextToken = (.ok t, l') ∧ l'.scanner = s ∧ l.table.GrowsTo l'.table ∧
      l'.table.Hashed ∧
      ∀ u, l'.table.GrowsTo u → t.Denotes l.table.policy u ⟨x.kind, x.text⟩ := by
  obtain ⟨kind, text, pos⟩ := x
  cases text with
  | none =>
      refine ⟨⟨kind, none, pos⟩, { l with scanner := s }, ?_, rfl, .refl _, hl,
        fun u _ => ⟨rfl, rfl⟩⟩
      simp [nextToken, Attempt.bind_apply, lexeme, internLexeme, h]
  | some text =>
      obtain ⟨stored, hget, hagrees⟩ := Intern.Table.exists_get?_intern hl text
      refine ⟨⟨kind, some (l.table.intern text).1, pos⟩, { l with
        scanner := s, table := (l.table.intern text).2 }, ?_, rfl, l.table.growsTo_intern text,
        hl.intern text, fun u hu => ⟨rfl, _, stored, rfl, hu.get? hget, hagrees⟩⟩
      simp [nextToken, Attempt.bind_apply, lexeme, internLexeme, h]

theorem tokenize_of_eof {l l' : Lexer} {t : Token} (h : l.nextToken = (.ok t, l'))
    (ht : t.kind = .eof) : l.tokenize = (.ok [t], { l' with finished := true }) := by
  rw [tokenize]
  split
  next h' => rw [h] at h'; cases h'
  next h' => rw [h] at h'; cases h'; rw [dif_pos ht]

/-- A token other than `eof` stands before all that follow. -/
theorem tokenize_of_ne_eof {l l' l'' : Lexer} {t : Token} {ts : List Token}
    (h : l.nextToken = (.ok t, l')) (ht : t.kind ≠ .eof) (hts : l'.tokenize = (.ok ts, l'')) :
    l.tokenize = (.ok (t :: ts), l'') := by
  rw [tokenize]
  split
  next h' => rw [h] at h'; cases h'
  next h' => rw [h] at h'; cases h'; rw [dif_neg ht, hts]

/-- **A text of trivia and lexemes is read**, and the tokens denote the words of the lexemes. -/
theorem tokenize_of_splits {limit : Nat} {t : Text} {words : List Word}
    (h : Splits limit t words) {l : Lexer} {p : Position} (hl : l.table.Hashed)
    (hs : l.scanner = ⟨⟨t, p⟩, [], limit⟩) :
    ∃ ts l', l.tokenize = (.ok ts, l') ∧ l.table.GrowsTo l'.table ∧
      List.Forall₂ (Token.Denotes l.table.policy l'.table) ts (words ++ [⟨.eof, none⟩]) := by
  induction h generalizing l p with
  | done htrivia =>
      obtain ⟨start, s, hnext⟩ := Scanner.next_of_trivia htrivia p
      rw [← hs] at hnext
      obtain ⟨t, l₁, hnext, -, hgrows, -, hdenotes⟩ := nextToken_of_next hl hnext
      have ht := hdenotes _ (.refl _)
      exact ⟨_, _, tokenize_of_eof hnext ht.1, hgrows, .cons ht .nil⟩
  | lexeme htrivia hlexes _ ih =>
      obtain ⟨start, p', hnext⟩ := Scanner.next_of_lexes htrivia hlexes p
      rw [← hs] at hnext
      obtain ⟨t, l₁, hnext, hs₁, hgrows, hl₁, hdenotes⟩ := nextToken_of_next hl hnext
      obtain ⟨ts, l', hts, hgrows', hall⟩ := ih hl₁ hs₁
      -- The table only grows, so the token still has its text at the end.
      have ht := hdenotes _ hgrows'
      rw [hgrows.1] at hall
      have hne : t.kind ≠ .eof := ht.1 ▸ hlexes.kind_ne_eof
      exact ⟨_, _, tokenize_of_ne_eof hnext hne hts, hgrows.trans hgrows', .cons ht hall⟩

/-- **What is read is trivia and lexemes.** -/
theorem splits_of_tokenize {limit : Nat} {t : Text} {l l' : Lexer} {p : Position}
    {ts : List Token} (hs : l.scanner = ⟨⟨t, p⟩, [], limit⟩) (h : l.tokenize = (.ok ts, l')) :
    ∃ words, Splits limit t words := by
  fun_induction tokenize l generalizing t p ts l' with
  | case1 => cases h
  | case2 l token l₁ hnext heof =>
      obtain ⟨x, s, hx, hkind, -⟩ := nextToken_eq_ok hnext
      rw [hs] at hx
      rcases Scanner.splits_of_next hx with ⟨-, htrivia⟩ | ⟨_, _, _, -, hlexes, -⟩
      · exact ⟨[], .done htrivia⟩
      · exact absurd (hkind.symm.trans heof) hlexes.kind_ne_eof
  | case3 l token l₁ hnext hne ts l₂ hrest ih =>
      obtain ⟨x, s, hx, hkind, hl₁⟩ := nextToken_eq_ok hnext
      have hs₁ : l₁.scanner = s := by
        rcases hl₁ with ⟨-, -, rfl⟩ | ⟨_, -, -, rfl⟩ <;> rfl
      rw [hs] at hx
      rcases Scanner.splits_of_next hx with ⟨heof, -⟩ | ⟨_, _, _, htrivia, hlexes, rfl⟩
      · exact absurd (hkind.trans heof) hne
      · obtain ⟨words, hwords⟩ := ih hs₁ hrest
        exact ⟨_, .lexeme htrivia hlexes hwords⟩
  | case4 => cases h

/-- **Lexing is exact.**  Whatever was interned before, a source is read just if it is trivia and
lexemes, and then the tokens denote the words of the lexemes, with one `eof` behind them. -/
theorem tokenize_exact (source : Text) (limit : Nat) (policy : Intern.Policy)
    (history : List Text) :
    let l := ofText source ((Intern.Table.empty policy).internAll history) limit
    ((∃ ts l', l.tokenize = (.ok ts, l')) ↔ ∃ words, Splits limit source words) ∧
      ∀ ts l' words, l.tokenize = (.ok ts, l') → Splits limit source words →
        List.Forall₂ (Token.Denotes policy l'.table) ts (words ++ [⟨.eof, none⟩]) := by
  intro l
  obtain ⟨hpolicy, hhashed⟩ :=
    Intern.Table.internAll_spec (Intern.Table.hashed_empty policy) history
  have hcomplete : ∀ words, Splits limit source words → ∃ ts l', l.tokenize = (.ok ts, l') ∧
      List.Forall₂ (Token.Denotes policy l'.table) ts (words ++ [⟨.eof, none⟩]) := by
    intro words hsplits
    obtain ⟨ts, l', hts, -, hall⟩ := tokenize_of_splits (l := l) hsplits hhashed rfl
    rw [show l.table.policy = policy from hpolicy] at hall
    exact ⟨ts, l', hts, hall⟩
  refine ⟨⟨?_, ?_⟩, ?_⟩
  · rintro ⟨ts, l', hts⟩
    exact splits_of_tokenize rfl hts
  · rintro ⟨words, hsplits⟩
    obtain ⟨ts, l', hts, -⟩ := hcomplete words hsplits
    exact ⟨ts, l', hts⟩
  · intro ts l' words hts hsplits
    obtain ⟨ts', l'', hts', hall⟩ := hcomplete words hsplits
    cases hts.symm.trans hts'
    exact hall

end Lexer

end ScriptLang
