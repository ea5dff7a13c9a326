import ScriptLang.Proofs.Lexer.Reports
import ScriptLang.Proofs.Parser.Concatenation

/-!
# Braces change nothing but positions

Put a source between `{` and a line end with `}`.  The first brace moves the first row by a column.
The line end closes a comment that the source ends in, so the last brace is a token of its own, and
it ends what the end of the source has ended.

A program in braces is a block by its layout, as for concatenation.  The other way round the source
has to be cut out of the braces.  No lexeme goes beyond the line end, because none holds one.  A
comment in `##` would have to be closed behind it, where no `#` stands.

* `Splits.cut`: a text is trivia and lexemes up to such a line end.
* `Lexer.tokenize_inBraces`: the tokens between the braces are those of the source, moved.
* `Grammar.blockAt_inBraces`: the closing brace stops the statements that the end of the source
  stops.
* **Braces** (`Block.parse_inBraces`).
-/

namespace ScriptLang

open Intern (Table)

/-- A source in braces, the second on a line of its own. -/
def Text.inBraces (source : Text) : Text := Text.ofString "\x7b" ++ source ++ Text.ofString "\n\x7d"

/-! ### Places -/

namespace Position

/-- Where a place comes to stand if a byte is put before the source: on the first row, columns are
one larger. -/
def indent (p : Position) : Position := if p.row = 1 then p.right 1 else p

/-- Where a place has stood before. -/
def outdent (p : Position) : Position := if p.row = 1 then { p with col := p.col - 1 } else p

theorem outdent_indent (p : Position) : p.indent.outdent = p := by
  unfold indent
  split
  next hrow => rw [outdent, if_pos (show (p.right 1).row = 1 from hrow)]; rfl
  next hrow => rw [outdent, if_neg hrow]

/-- The source then begins in the second column of the first row. -/
theorem indent_eq_below : indent = below 1 := by
  funext p
  unfold indent below
  split
  next hrow => simp [right, hrow]
  next => simp

end Position

/-- Other positions and the same handles. -/
def Relocation.move (g : Position → Position) : Relocation := ⟨id, g⟩

/-- Tokens that are moved and moved back are the same. -/
theorem Token.map_outdent (ts : List Token) :
    (ts.map (relocate (.move .indent))).map (relocate (.move .outdent)) = ts := by
  rw [List.map_map]
  refine List.map_id'' (fun t => ?_) ts
  simp [relocate, Relocation.move, Position.outdent_indent]

/-- Moved lexemes that are interned in the same table become moved tokens. -/
theorem Lexeme.tokens_move (g : Position → Position) (table : Table) (xs : List Lexeme) :
    tokens table (xs.map (move g)) = (tokens table xs).map (Token.relocate (.move g)) := by
  induction xs generalizing table with
  | nil => rfl
  | cons x xs ih =>
      have hvalue (value : Option Symbol) : value = value.map (Relocation.move g).symbol :=
        (Option.map_id_apply ..).symm
      rw [List.map_cons, tokens, tokens, List.map_cons, Token.relocate, ← hvalue]
      exact congrArg (List.cons _) (ih _)

/-! ### Cutting a source -/

section Cut

variable {limit : Nat} {b : UInt8} {t run rest more piece : Text} {w : Word}

/-- No lexeme holds a line end. -/
theorem Lexes.isLineEnd_eq_false (h : Lexes limit run rest w) : ∀ b ∈ run, isLineEnd b = false := by
  have hletters {t : Text} (ht : isLetters t) : ∀ b ∈ t, isLineEnd b = false := by
    rw [isLetters, Bool.and_eq_true] at ht
    exact fun b hb => (lt_of_isWordByte (List.all_eq_true.mp ht.2 b hb)).2
  cases h with
  | operator hkind => exact fun b hb => (lt_of_mem_operator hkind hb).2
  | @keyword kind _ hkind => exact hletters (isLetters_keyword kind hkind)
  | identifier hrun => exact hletters hrun
  | number hrun =>
      simp only [isFigures, Bool.and_eq_true] at hrun
      exact fun b hb => (lt_of_isNumberByte (List.all_eq_true.mp hrun.1.2 b hb)).2
  | @string quote body _ hquote hbody =>
      have hends := (lt_of_isQuote hquote).2
      intro b hb
      simp only [List.mem_cons, List.mem_append, List.not_mem_nil, or_false] at hb
      rcases hb with rfl | hb | rfl
      · exact hends
      · have hbyte := List.all_eq_true.mp hbody b hb
        simp only [isStringByte, Bool.and_eq_true, Bool.not_eq_true'] at hbyte
        exact hbyte.2
      · exact hends

/-- A lexeme before some bytes is one before fewer of them. -/
theorem Lexes.of_append (h : Lexes limit run (rest ++ more) w) : Lexes limit run rest w := by
  have hstops {p : UInt8 → Bool} (hp : stopsAt p (rest ++ more)) : stopsAt p rest := by
    cases rest with
    | nil => exact stopsAt_nil
    | cons b rest => exact hp
  cases h with
  | operator hkind hrest =>
      exact .operator hkind fun hshort heq =>
        hrest hshort (List.mem_head?_append_of_mem_head? heq)
  | keyword hkind hlen hrest => exact .keyword hkind hlen (hstops hrest)
  | identifier hrun hkey hlen hrest => exact .identifier hrun hkey hlen (hstops hrest)
  | number hrun hlen hrest => exact .number hrun hlen (hstops hrest)
  | string hquote hbody hlen => exact .string hquote hbody hlen

/-- A piece of trivia before some bytes is one before fewer of them. -/
theorem Trivium.of_append (h : Trivium piece (rest ++ more)) : Trivium piece rest := by
  cases h with
  | blank hb => exact .blank hb
  | lineComment hhash hbody hrest =>
      exact .lineComment hhash hbody fun b hb => hrest b (List.mem_head?_append_of_mem_head? hb)
  | blockComment hbody => exact .blockComment hbody

/-- A line end in a piece of trivia, with no `#` behind it, is the piece. -/
theorem Trivium.eq_nil_of_lineEnd (h : Trivium (t ++ b :: more) rest) (hb : isLineEnd b)
    (hmore : hashMark ∉ more) : t = [] := by
  have hne := Cursor.Zone.ne_hashMark_of_isLineEnd hb
  generalize hpiece : t ++ b :: more = piece at h
  cases h with
  | blank =>
      obtain ⟨ht, -⟩ | ⟨-, htail⟩ := List.append_eq_singleton_iff.mp hpiece
      · exact ht
      · cases htail
  | lineComment _ hbody =>
      cases t with
      | nil => rfl
      | cons c t =>
          obtain ⟨-, rfl⟩ := List.cons.inj hpiece
          have hline := hbody b (by simp)
          rw [hb] at hline
          cases hline
  | @blockComment body =>
      -- The last byte of the piece is a `#`.
      have hlast : hashMark ∈ (b :: more).getLast? := by
        have happend := congrArg List.getLast? hpiece
        rw [List.getLast?_append_of_ne_nil _ (List.cons_ne_nil b more)] at happend
        rw [happend, List.getLast?_append_of_ne_nil _ (List.cons_ne_nil _ _)]
        rfl
      rcases List.mem_cons.mp (List.mem_of_mem_getLast? hlast) with rfl | hmem
      · exact absurd rfl hne
      · exact absurd hmem hmore

/-- Trivia that goes up to a line end or beyond, where no `#` stands, is trivia up to there. -/
theorem Trivia.cut (h : Trivia (t ++ b :: more) rest) (hb : isLineEnd b)
    (hmore : hashMark ∉ more) :
    Trivia t [] ∨ ∃ rest', rest = rest' ++ b :: more ∧ Trivia t rest' := by
  generalize htext : t ++ b :: more = text at h
  induction h generalizing t with
  | nil => exact .inr ⟨t, htext.symm, .nil⟩
  | @cons piece rest₁ rest hpiece _ ih =>
      rcases List.append_eq_append_iff.mp htext with ⟨a, rfl, hrest⟩ | ⟨a, rfl, rfl⟩
      · cases a with
        | nil =>
            have hall := Trivia.cons (@Trivium.of_append [] _ _ hpiece) .nil
            rw [List.append_nil, List.append_nil] at hall
            exact .inl hall
        | cons c a =>
            obtain ⟨rfl, rfl⟩ := List.cons.inj hrest
            obtain rfl := hpiece.eq_nil_of_lineEnd hb
              fun hmem => hmore (List.mem_append_left _ hmem)
            exact .inl .nil
      · rcases ih rfl with ha | ⟨rest', rfl, ha⟩
        · exact .inl (.cons hpiece.of_append ha)
        · exact .inr ⟨rest', rfl, .cons hpiece.of_append ha⟩

/-- **Cutting.**  Before a line end with no `#` behind it, a text is trivia and lexemes. -/
theorem Splits.cut {words : List Word} (h : Splits limit (t ++ b :: more) words)
    (hb : isLineEnd b) (hmore : hashMark ∉ more) : ∃ words', Splits limit t words' := by
  generalize htext : t ++ b :: more = text at h
  induction h generalizing t with
  | done htrivia =>
      subst htext
      rcases htrivia.cut hb hmore with ht | ⟨rest', hnil, -⟩
      · exact ⟨[], .done ht⟩
      · simp at hnil
  | @lexeme text run rest w words htrivia hlexes _ ih =>
      subst htext
      rcases htrivia.cut hb hmore with ht | ⟨rest', happend, ht⟩
      · exact ⟨[], .done ht⟩
      · obtain ⟨a, rfl, rfl⟩ : ∃ a, rest' = run ++ a ∧ rest = a ++ b :: more := by
          rcases List.append_eq_append_iff.mp happend with ha | ⟨a, rfl, hrest⟩
          · exact ha
          · cases a with
            | nil => exact ⟨[], by simp, hrest.symm⟩
            | cons c a =>
                obtain ⟨rfl, -⟩ := List.cons.inj hrest
                have hline := hlexes.isLineEnd_eq_false b (by simp)
                rw [hb] at hline
                cases hline
        obtain ⟨words', hsplits⟩ := ih rfl
        exact ⟨w :: words', .lexeme ht hlexes.of_append hsplits⟩

end Cut

/-! ### The tokens in braces -/

namespace Lexer

variable {source : Text} {options : LexerOptions}

/-- The lexer behind the opening brace. -/
def behindBrace (source : Text) (options : LexerOptions) : Lexer :=
  { scanner := ⟨⟨source ++ [10, 125], ⟨1, 2⟩⟩, [], options.bufferLength⟩
    table := .empty options.policy
    finished := false }

/-- The first token of a source in braces is the opening brace, and behind it the lexer starts on
the source. -/
theorem nextToken_inBraces (source : Text) (options : LexerOptions) :
    (start source.inBraces options).nextToken =
      (.ok ⟨.lBrace, none, ⟨1, 1⟩⟩, behindBrace source options) := by
  have hbrace : Lexes options.bufferLength [123] (source ++ [10, 125]) ⟨.lBrace, none⟩ :=
    @Lexes.sign _ .lBrace (by decide) (by decide) _
  have hnext : (start source.inBraces options).scanner.next =
      (.ok ⟨.lBrace, none, ⟨1, 1⟩⟩, (behindBrace source options).scanner) :=
    @Scanner.next_of_gap _ [] [123] _ _ .nil hbrace ⟨1, 1⟩
  exact nextToken_of_lexeme hnext

/-- What is read in braces can be read without them. -/
theorem layout_of_inBraces {ts : List Token} {l : Lexer}
    (h : (start source.inBraces options).tokenize = (.ok ts, l)) :
    ∃ xs e, Layout options.bufferLength source ⟨1, 1⟩ xs e := by
  rw [tokenize_eq, nextToken_inBraces] at h
  rcases hrest : (behindBrace source options).tokenize with ⟨_ | ts', l'⟩
  · simp [hrest, Except.map] at h
  · obtain ⟨words, hsplits⟩ := splits_of_tokenize rfl hrest
    obtain ⟨words', hcut⟩ := hsplits.cut rfl (by decide)
    exact hcut.layout ⟨1, 1⟩

/-- **The tokens in braces** are those of the source, with the first row moved by a column. -/
theorem tokenize_inBraces {xs : List Lexeme} {e : Position}
    (h : Layout options.bufferLength source ⟨1, 1⟩ xs e) :
    ∃ row l, l.table = (Table.empty options.policy).internAll (Lexeme.texts xs) ∧
      (start source.inBraces options).tokenize = (.ok (⟨.lBrace, none, ⟨1, 1⟩⟩ ::
        ((Lexeme.tokens (.empty options.policy) xs).map (Token.relocate (.move .indent)) ++
          [⟨.rBrace, none, ⟨row, 1⟩⟩, ⟨.eof, none, ⟨row, 2⟩⟩])), l) := by
  have hclose : ∀ rest, Lexes options.bufferLength [125] rest ⟨.rBrace, none⟩ :=
    @Lexes.sign _ .rBrace (by decide) (by decide)
  have hlines : Position.RespectsLines .indent := by
    rw [Position.indent_eq_below]
    exact Position.respectsLines_below 1
  have hmoved := h.move hlines (Nat.le_refl 1)
  obtain ⟨row, hjoin⟩ := hmoved.join hclose
  obtain ⟨l, htokens, htable⟩ := tokenize_of_layout (l := behindBrace source options)
    (hjoin [] [] _ (.done .nil)) rfl
  rw [Lexeme.texts_append, Lexeme.texts_move] at htable
  rw [Lexeme.tokens_append, Lexeme.tokens_move, List.append_assoc] at htokens
  refine ⟨row, l, ?_, tokenize_of_ne_eof (nextToken_inBraces source options) nofun htokens⟩
  rw [htable]
  exact congrArg _ (List.append_nil _)

end Lexer

/-! ### The derivation in braces -/

namespace Grammar

/-- **Statements in braces.**  The closing brace stops the statements that the end of the source
stops. -/
theorem blockAt_inBraces {ts : List Token} {opening closing e t : Token} {b : Block}
    (hopening : opening.kind = .lBrace) (hclosing : closing.kind = .rBrace) {e' : Token}
    (he' : e'.kind = .eof) :
    BlockAt (opening :: (ts ++ [closing, e])) b [t] ↔
      t = e ∧ ∃ body, b = .mk body opening.pos ∧ StmtsAt (ts ++ [e']) body [e'] := by
  constructor
  · intro h
    cases h with
    | @mk _ u _ _ body _ hs hu =>
        cases hs.rest_eq rfl
        refine ⟨rfl, body, rfl, hs.before (.mk ?_ ?_)⟩ <;> exact fun _ => by rw [he']; rfl
  · rintro ⟨rfl, body, rfl, hs⟩
    refine .mk hopening (hs.before (.mk ?_ ?_)) hclosing <;> exact fun _ => by rw [hclosing]; rfl

end Grammar

/-! ### Programs and blocks -/

variable {source : Text} {options : LexerOptions}

/-- A program is a block if it is put in braces. -/
theorem Block.parse_of_program {prog : Program} {table : Table}
    (h : Program.parse source options = .ok (prog, table)) :
    Block.parse source.inBraces options =
      .ok (.mk (prog.relocate (.move .indent)).stmts ⟨1, 1⟩, table) := by
  obtain ⟨ts, l, t, htokens, rfl, ht, hstmts⟩ := Program.parse_eq_ok_iff_stmtsAt.mp h
  obtain ⟨xs, e, hlayout, rfl, htable⟩ := Lexer.layout_of_tokenize rfl htokens
  obtain ⟨row, l', htable', htokens'⟩ := Lexer.tokenize_inBraces hlayout
  cases hstmts.rest_eq rfl
  have hmoved := hstmts.relocate (.move .indent)
  rw [List.map_append] at hmoved
  refine Block.parse_eq_ok_iff_blockAt.mpr
    ⟨_, l', ⟨.eof, none, ⟨row, 2⟩⟩, htokens', htable'.trans htable.symm, rfl, ?_⟩
  exact (Grammar.blockAt_inBraces rfl rfl rfl).mpr ⟨rfl, _, rfl, hmoved⟩

/-- What is a block in braces is a program without them. -/
theorem Program.exists_parse_of_block {b : Block} {table : Table}
    (h : Block.parse source.inBraces options = .ok (b, table)) :
    ∃ prog table', Program.parse source options = .ok (prog, table') := by
  obtain ⟨ts, l, t, htokens, -, -, hblock⟩ := Block.parse_eq_ok_iff_blockAt.mp h
  obtain ⟨xs, e, hlayout⟩ := Lexer.layout_of_inBraces htokens
  obtain ⟨row, l', -, htokens'⟩ := Lexer.tokenize_inBraces hlayout
  cases htokens.symm.trans htokens'
  -- The tokens of the source are those in braces, moved back.
  let eof : Token := ⟨.eof, none, e⟩
  have heof : (eof.relocate (.move .indent)).kind = .eof := rfl
  obtain ⟨-, body, -, hstmts⟩ := (Grammar.blockAt_inBraces rfl rfl heof).mp hblock
  have hback := hstmts.relocate (.move .outdent)
  rw [← List.map_singleton, ← List.map_append, Token.map_outdent, Token.map_outdent] at hback
  obtain ⟨l₁, htokens₁, -⟩ :=
    Lexer.tokenize_of_layout (l := Lexer.start source options) hlayout rfl
  exact ⟨⟨Stmt.relocateAll (.move .outdent) body⟩, l₁.table, Program.parse_eq_ok_iff_stmtsAt.mpr
    ⟨_, l₁, eof, htokens₁, rfl, rfl, hback⟩⟩

/-- **Braces change nothing but positions.**  A source in braces is a block just if the source is a
program.  The statements of the block are those of the program, over the same table, except that
columns on the first row are one larger. -/
theorem Block.parse_inBraces (source : Text) (options : LexerOptions) (b : Block) (table : Table) :
    Block.parse source.inBraces options = .ok (b, table) ↔
      ∃ prog, Program.parse source options = .ok (prog, table) ∧
        b = .mk (prog.relocate (.move .indent)).stmts ⟨1, 1⟩ := by
  constructor
  · intro h
    obtain ⟨prog, table', hprog⟩ := Program.exists_parse_of_block h
    cases h.symm.trans (parse_of_program hprog)
    exact ⟨prog, hprog, rfl⟩
  · rintro ⟨prog, hprog, rfl⟩
    exact parse_of_program hprog

end ScriptLang
