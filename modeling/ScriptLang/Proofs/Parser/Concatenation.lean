import ScriptLang.Proofs.Grammar.Relocation
import ScriptLang.Proofs.Lexer.Layout
import ScriptLang.Proofs.Parser.Laziness

/-!
# Programs compose by concatenation

Put a line end and a semicolon between two sources that are programs.  The line end closes a comment
that the first one ends in and may make a pair with a carriage return there, so the semicolon begins
a line.  The semicolon ends what the end of the source has ended.  Behind it the lexemes of the
second source stand where they stood, but further down, and the texts that the first source has
interned give them other handles.

* `Position.below`: a place of a source that begins in the second column of a row.
* `Intern.Table.translate`: the handle of the same text in another table.
* `Lexer.tokenize_concat`: the tokens of the whole are those of the first source, the semicolon and
  those of the second, relocated.
* **Concatenation** (`Program.parse_concat`).
-/

namespace ScriptLang

open Intern (Table)

/-! ### Places -/

/-- Where a place of a source comes to stand if the source begins in the second column of a row. -/
def Position.below (row : Nat) (p : Position) : Position :=
  if p.row = 1 then ⟨row, p.col + 1⟩ else ⟨row + p.row - 1, p.col⟩

/-- Places below a row keep columns and lines apart as they were, so a lexer that starts there goes
the same way. -/
theorem Position.respectsLines_below (row : Nat) : RespectsLines (below row) where
  right p n := by
    unfold below right
    split
    · exact congrArg (Position.mk row) (Nat.add_right_comm p.col n 1)
    · rfl
  nextLine p hp := by
    have hlater : p.row + 1 ≠ 1 := by omega
    unfold below nextLine
    split
    · next hfirst => exact absurd hfirst hlater
    · split
      · next hfirst => rw [hfirst]; rfl
      · have hrow : row + (p.row + 1) - 1 = row + p.row - 1 + 1 := by omega
        exact congrArg (Position.mk · 1) hrow

/-! ### Handles -/

namespace Intern.Table

variable {t u : Table} {s : Symbol} {text : Text}

/-- The handle in `u` of the text that a handle stands for in `t`. -/
def translate (t u : Table) (s : Symbol) : Symbol := (u.intern ((t.get? s).getD [])).1

/-- A table that compares texts has a handle for every text of its history. -/
theorem Records.get?_translate {history : List Text} (h : u.Records history)
    (hpolicy : u.policy = .verified) (hs : t.get? s = some text) (hmem : text ∈ history) :
    u.get? (t.translate u s) = some text := by
  rw [translate, hs, Option.getD_some]
  rcases intern_cases h.hashed text with ⟨i, e, he, hagrees, heq⟩ | ⟨hnew, -⟩
  · rw [hpolicy] at hagrees
    rw [heq, get?, he, ← hagrees]
    rfl
  · obtain ⟨e, he, hagrees⟩ := h.covers text hmem
    exact absurd hagrees (hnew e he)

/-- The table of a history of texts that are compared. -/
def verified (history : List Text) : Table := (empty .verified).internAll history

theorem policy_verified (history : List Text) : (verified history).policy = .verified :=
  (internAll_spec (hashed_empty _) history).1

/-- A handle stands for its text from then on. -/
theorem get?_intern_verified (before : List Text) (text : Text) (after : List Text) :
    (verified (before ++ text :: after)).get? ((verified before).intern text).1 = some text := by
  obtain ⟨_, hget, rfl⟩ := exists_get?_handleAfter .verified before text after
  exact hget

/-- The text of a handle that one history gave out has a handle after any that has more texts. -/
theorem get?_translate_verified {history more : List Text}
    (hs : (verified history).get? s = some text) (hmore : history ⊆ more) :
    (verified more).get? ((verified history).translate (verified more) s) = some text := by
  refine (records_internAll .verified more).get?_translate (policy_verified more) hs (hmore ?_)
  refine ((records_internAll .verified history).mem_texts (policy_verified history)).mp ?_
  obtain ⟨e, he, rfl⟩ := Option.map_eq_some_iff.mp hs
  exact List.mem_map_of_mem (List.mem_of_getElem? he)

end Intern.Table

namespace Lexeme

/-- The handle of a token stands for a text. -/
theorem exists_get?_of_mem_tokens {t : Token} {s : Symbol} (hs : t.value = some s)
    (before : List Text) (xs : List Lexeme) (ht : t ∈ tokens (Table.verified before) xs) :
    ∃ text, (Table.verified (before ++ texts xs)).get? s = some text := by
  induction xs generalizing before with
  | nil => cases ht
  | cons x xs ih =>
      rw [texts_cons]
      rcases List.mem_cons.mp ht with rfl | ht
      · obtain ⟨text, htext, rfl⟩ := Option.map_eq_some_iff.mp hs
        rw [htext]
        exact ⟨text, Table.get?_intern_verified before text (texts xs)⟩
      · rw [Table.verified, ← Table.internAll_append] at ht
        rw [← List.append_assoc]
        exact ih (before ++ x.text.toList) ht

/-- **The same lexemes elsewhere.**  Interned after other texts and moved, they become relocated
tokens, if the relocation keeps the texts of handles. -/
theorem tokens_relocate {r : Relocation} (before before' : List Text) (xs : List Lexeme)
    (hr : ∀ s text, (Table.verified (before ++ texts xs)).get? s = some text →
      (Table.verified (before' ++ texts xs)).get? (r.symbol s) = some text) :
    tokens (Table.verified before') (xs.map (move r.position)) =
      (tokens (Table.verified before) xs).map (Token.relocate r) := by
  induction xs generalizing before before' with
  | nil => rfl
  | cons x xs ih =>
      rw [texts_cons] at hr
      have hrest := ih (before ++ x.text.toList) (before' ++ x.text.toList)
        (by rwa [List.append_assoc, List.append_assoc])
      have hvalue : (x.text.map fun text => ((Table.verified before').intern text).1) =
          (x.text.map fun text => ((Table.verified before).intern text).1).map r.symbol := by
        cases htext : x.text with
        | none => rfl
        | some text =>
            rw [htext] at hr
            -- Both are the handle of the text in the table at the end.
            have hthere := hr _ _ (Table.get?_intern_verified before text (texts xs))
            have hhere := Table.get?_intern_verified before' text (texts xs)
            have hrecords := Table.records_internAll .verified (before' ++ text :: texts xs)
            exact congrArg some (hrecords.eq_of_agrees hhere hthere (Intern.Policy.agrees_refl _ _))
      simp only [Table.verified, Table.internAll_append] at hrest
      rw [List.map_cons, tokens, tokens, List.map_cons, Token.relocate]
      exact congrArg₂ List.cons (congrArg (Token.mk _ · _) hvalue) hrest

end Lexeme

/-! ### Sources -/

/-- The tokens of two sources with a line end and a semicolon between them. -/
theorem Lexer.tokenize_concat {limit : Nat} {first second : Text} {xs₁ xs₂ : List Lexeme}
    {e₁ e₂ : Position} (h₁ : Layout limit first ⟨1, 1⟩ xs₁ e₁)
    (h₂ : Layout limit second ⟨1, 1⟩ xs₂ e₂) :
    ∃ row l, l.table = Table.verified (Lexeme.texts xs₁ ++ Lexeme.texts xs₂) ∧
      (Lexer.start (first ++ Text.ofString "\n;" ++ second) ⟨limit, .verified⟩).tokenize =
        (.ok (Lexeme.tokens (.verified []) xs₁ ++ ⟨.semicolon, none, ⟨row, 1⟩⟩ ::
          (Lexeme.tokens (.verified []) xs₂ ++ [(⟨.eof, none, e₂⟩ : Token)]).map (Token.relocate
            ⟨(Table.verified (Lexeme.texts xs₂)).translate l.table, Position.below row⟩)), l) := by
  have hsemicolon : ∀ rest, Lexes limit [59] rest ⟨.semicolon, none⟩ :=
    @Lexes.sign limit .semicolon (by decide) (by decide)
  obtain ⟨row, hjoin⟩ := h₁.join hsemicolon
  have hlayout := hjoin second _ _
    (h₂.move (Position.respectsLines_below row) (Nat.le_refl 1))
  have hsource : first ++ Text.ofString "\n;" ++ second = first ++ 10 :: 59 :: second :=
    List.append_assoc first _ second
  rw [← hsource] at hlayout
  obtain ⟨l, htokens, htable⟩ := tokenize_of_layout hlayout
    (l := Lexer.start (first ++ Text.ofString "\n;" ++ second) ⟨limit, .verified⟩) rfl
  rw [Lexeme.texts_append, Lexeme.texts_cons, Lexeme.texts_move] at htable
  have htable : l.table = Table.verified (Lexeme.texts xs₁ ++ Lexeme.texts xs₂) := htable
  refine ⟨row, l, htable, htokens.trans ?_⟩
  have hsecond := Lexeme.tokens_relocate [] (Lexeme.texts xs₁) xs₂
    (r := ⟨(Table.verified (Lexeme.texts xs₂)).translate l.table, Position.below row⟩)
    (fun s text hs => by
      rw [htable]
      exact Table.get?_translate_verified hs (List.subset_append_right _ _))
  rw [Lexeme.tokens_append, List.append_assoc, List.map_append, ← hsecond]
  rfl

/-- What there is to an accepted source: a layout, whose tokens are a program, and a table in which
every handle of the program stands for a text. -/
theorem Program.layout_of_parse {limit : Nat} {source : Text} {prog : Program} {table : Table}
    (h : Program.parse source ⟨limit, .verified⟩ = .ok (prog, table)) :
    ∃ xs e l, Layout limit source ⟨1, 1⟩ xs e ∧ table = .verified (Lexeme.texts xs) ∧
      (Lexer.start source ⟨limit, .verified⟩).tokenize =
        (.ok (Lexeme.tokens (.verified []) xs ++ [⟨.eof, none, e⟩]), l) ∧
      Grammar.ProgramAt (Lexeme.tokens (.verified []) xs ++ [⟨.eof, none, e⟩]) prog ∧
      ∀ t ∈ prog.tokens, ∀ s, t.value = some s → ∃ text, table.get? s = some text := by
  obtain ⟨ts, l, htokens, rfl, hprog⟩ := programAt_of_parse h
  obtain ⟨ts', l', htokens', -, hmem⟩ := mem_tokenize_of_parse h
  cases htokens.symm.trans htokens'
  obtain ⟨xs, e, hlayout, rfl, htable⟩ := Lexer.layout_of_tokenize rfl htokens
  refine ⟨xs, e, l, hlayout, htable, htokens, hprog, fun t ht s hs => ?_⟩
  rcases List.mem_append.mp (hmem t ht) with ht | ht
  · rw [htable]
    exact Lexeme.exists_get?_of_mem_tokens hs [] xs ht
  · rw [List.mem_singleton.mp ht] at hs
    cases hs

/-- **Concatenation.**  Two sources that are accepted are accepted with a line end and a semicolon
between them.  The statements are those of the first, as they were, and those of the second, below
the row of the semicolon, and all handles stand for the texts that they stood for. -/
theorem Program.parse_concat {limit : Nat} {first second : Text} {prog₁ prog₂ : Program}
    {table₁ table₂ : Table}
    (h₁ : Program.parse first ⟨limit, .verified⟩ = .ok (prog₁, table₁))
    (h₂ : Program.parse second ⟨limit, .verified⟩ = .ok (prog₂, table₂)) :
    ∃ row table before e l₁ after l,
      -- The semicolon is the token behind those of the first source.
      (Lexer.start first ⟨limit, .verified⟩).tokenize = (.ok (before ++ [e]), l₁) ∧
      (Lexer.start (first ++ Text.ofString "\n;" ++ second) ⟨limit, .verified⟩).tokenize =
        (.ok (before ++ ⟨.semicolon, none, ⟨row, 1⟩⟩ :: after), l) ∧
      Program.parse (first ++ Text.ofString "\n;" ++ second) ⟨limit, .verified⟩ =
        .ok (⟨prog₁.stmts ++
          (prog₂.relocate ⟨table₂.translate table, Position.below row⟩).stmts⟩, table) ∧
      (∀ t ∈ prog₁.tokens, ∀ s, t.value = some s →
        ∃ text, table₁.get? s = some text ∧ table.get? s = some text) ∧
      ∀ t ∈ prog₂.tokens, ∀ s, t.value = some s →
        ∃ text, table₂.get? s = some text ∧ table.get? (table₂.translate table s) = some text := by
  obtain ⟨xs₁, e₁, l₁, hlayout₁, rfl, htokens₁, hprog₁, hhandles₁⟩ := layout_of_parse h₁
  obtain ⟨xs₂, e₂, -, hlayout₂, rfl, -, hprog₂, hhandles₂⟩ := layout_of_parse h₂
  obtain ⟨row, l, htable, htokens⟩ := Lexer.tokenize_concat hlayout₁ hlayout₂
  refine ⟨row, l.table, _, _, l₁, _, l, htokens₁, htokens,
    parse_of_programAt htokens (hprog₁.append hprog₂ rfl _), fun t ht s hs => ?_,
    fun t ht s hs => ?_⟩
  · obtain ⟨text, htext⟩ := hhandles₁ t ht s hs
    refine ⟨text, htext, ?_⟩
    rw [htable, Table.verified, Table.internAll_append]
    exact (Table.growsTo_internAll _ _).get? htext
  · obtain ⟨text, htext⟩ := hhandles₂ t ht s hs
    refine ⟨text, htext, ?_⟩
    rw [htable]
    exact Table.get?_translate_verified htext (List.subset_append_right _ _)

/-- A call before a comment and a carriage return, and a call behind it. -/
theorem Program.parse_concat_calls : ∃ row table symbol,
    Program.parse (Text.ofString "$('')#\r" ++ Text.ofString "\n;" ++ Text.ofString "$(';')")
      ⟨31, .verified⟩ =
        .ok (⟨[.call (.mk (.literal ⟨.str, some ⟨0⟩, ⟨1, 3⟩⟩) [] ⟨1, 1⟩),
          .call (.mk (.literal ⟨.str, some symbol, ⟨row, 4⟩⟩) [] ⟨row, 2⟩)]⟩, table) ∧
      table.get? ⟨0⟩ = some [stringMark] ∧ table.get? symbol = some [stringMark, 59] := by
  have hfirst : (Lexer.start (Text.ofString "$('')#\r") ⟨31, .verified⟩).tokenize =
      (.ok [⟨.money, none, ⟨1, 1⟩⟩, ⟨.lParen, none, ⟨1, 2⟩⟩, ⟨.str, some ⟨0⟩, ⟨1, 3⟩⟩,
        ⟨.rParen, none, ⟨1, 5⟩⟩, ⟨.eof, none, ⟨2, 1⟩⟩],
        ⟨⟨⟨[], ⟨2, 1⟩⟩, [], 31⟩, ⟨.verified, [.ofText [stringMark]]⟩, true⟩) := by cbv
  have hsecond : (Lexer.start (Text.ofString "$(';')") ⟨31, .verified⟩).tokenize =
      (.ok [⟨.money, none, ⟨1, 1⟩⟩, ⟨.lParen, none, ⟨1, 2⟩⟩, ⟨.str, some ⟨0⟩, ⟨1, 3⟩⟩,
        ⟨.rParen, none, ⟨1, 6⟩⟩, ⟨.eof, none, ⟨1, 7⟩⟩],
        ⟨⟨⟨[], ⟨1, 7⟩⟩, [], 31⟩, ⟨.verified, [.ofText [stringMark, 59]]⟩, true⟩) := by cbv
  have hcall : ∀ p q r u v : Position, Grammar.ProgramAt
      [⟨.money, none, p⟩, ⟨.lParen, none, q⟩, ⟨.str, some ⟨0⟩, r⟩, ⟨.rParen, none, u⟩,
        ⟨.eof, none, v⟩] ⟨[.call (.mk (.literal ⟨.str, some ⟨0⟩, r⟩) [] p)]⟩ := by
    intro p q r u v
    have hcallee : Grammar.ExprAt [⟨.str, some ⟨0⟩, r⟩, ⟨.rParen, none, u⟩, ⟨.eof, none, v⟩]
        (.literal ⟨.str, some ⟨0⟩, r⟩) [⟨.rParen, none, u⟩, ⟨.eof, none, v⟩] :=
      .mk (.primary (.literal rfl)) (.nil rfl) (.single _)
    exact .mk (.nil _) (.cons (.call (.mk rfl rfl hcallee (.nil _) rfl)) (.nil _) (.nil _)) rfl
  have h₁ := parse_of_programAt hfirst (hcall ..)
  have h₂ := parse_of_programAt hsecond (hcall ..)
  obtain ⟨row, table, -, -, -, -, -, -, -, hparse, hhandles₁, hhandles₂⟩ := parse_concat h₁ h₂
  refine ⟨row, table, _, hparse, ?_, ?_⟩
  · obtain ⟨_, htext, hget⟩ := hhandles₁ _ (.head _) ⟨0⟩ rfl
    cases htext
    exact hget
  · obtain ⟨_, htext, hget⟩ := hhandles₂ _ (.head _) ⟨0⟩ rfl
    cases htext
    exact hget

end ScriptLang
