import ScriptLang.Proofs.Lexer.Layout
import ScriptLang.Proofs.Lexer.Spelling

/-!
# Layout does not matter

`Written words text` says that a text spells words, in any of their spellings, with blanks, line
ends and comments between any two of them.  A gap keeps words apart because its first byte goes on
with no lexeme (`Gap.apart`), and it swallows none of what follows because it is complete: a comment
up to the end of its line has its line end, and a comment in `##` is closed (`Gap.trivia`).

* **Lexing undoes printing**, whatever the layout (`Lexer.tokenize_written`).
-/

namespace ScriptLang

/-- A blank, a line end, or a comment that is complete. -/
inductive Filler : Text → Prop where
  | blank {b : UInt8} (hb : isBlank b ∨ isLineEnd b) : Filler [b]
  /-- From a `#` that is not before another to a line end. -/
  | lineComment {body : Text} {b : UInt8} (hhash : body.head? ≠ some hashMark)
      (hbody : ∀ c ∈ body, isLineEnd c = false) (hb : isLineEnd b) :
      Filler (hashMark :: (body ++ [b]))
  /-- From `##` to the first `##` after it. -/
  | blockComment {body : Text} (hbody : ¬ [hashMark, hashMark] <:+: body ++ [hashMark]) :
      Filler ([hashMark, hashMark] ++ body ++ [hashMark, hashMark])

/-- One or more blanks, line ends and complete comments. -/
inductive Gap : Text → Prop where
  | one {piece : Text} (h : Filler piece) : Gap piece
  | cons {piece gap : Text} (h : Filler piece) (hgap : Gap gap) : Gap (piece ++ gap)

/-- A text spells words, with a gap between any two of them. -/
inductive Written : List Word → Text → Prop where
  | nil : Written [] []
  | one {w : Word} {run : Text} (hrun : Spelled w run) : Written [w] run
  | cons {w v : Word} {words : List Word} {run gap rest : Text} (hrun : Spelled w run)
      (hgap : Gap gap) (hrest : Written (v :: words) rest) :
      Written (w :: v :: words) (run ++ (gap ++ rest))

/-! ### Gaps -/

variable {piece gap t rest : Text}

/-- A filler is trivia whatever comes behind it. -/
theorem Filler.trivia (h : Filler piece) (rest : Text) : Trivia (piece ++ rest) rest := by
  cases h with
  | blank hb => exact .cons (.blank hb) .nil
  | @lineComment body b hhash hbody hb =>
      have hline : Trivium (hashMark :: body) (b :: rest) := .lineComment hhash hbody fun c hc => by
        cases hc
        exact hb
      have hcomment := Trivia.cons hline (Trivia.cons (.blank (.inr hb)) .nil)
      simpa using hcomment
  | blockComment hbody => exact .cons (.blockComment hbody) .nil

/-- A filler begins with no byte of a token, so the word before it ends. -/
theorem Filler.apart (h : Filler piece) (rest : Text) : Apart (piece ++ rest) := by
  cases h with
  | blank hb =>
      rintro _ ⟨⟩
      rcases hb with hb | hb <;> simp [beginsToken, hb]
  | lineComment | blockComment =>
      rintro _ ⟨⟩
      rfl

theorem Gap.trivia (h : Gap gap) (rest : Text) : Trivia (gap ++ rest) rest := by
  induction h with
  | one h => exact h.trivia rest
  | cons h _ ih =>
      rw [List.append_assoc]
      exact (h.trivia _).trans ih

theorem Gap.apart (h : Gap gap) (rest : Text) : Apart (gap ++ rest) := by
  cases h with
  | one h => exact h.apart rest
  | cons h =>
      rw [List.append_assoc]
      exact h.apart _

/-! ### Written words -/

/-- Trivia may stand before a splitting. -/
theorem Splits.behind {limit : Nat} {words : List Word} (h : Splits limit rest words)
    (ht : Trivia t rest) : Splits limit t words := by
  cases h with
  | done htrivia => exact .done (ht.trans htrivia)
  | lexeme htrivia hlexes hrest => exact .lexeme (ht.trans htrivia) hlexes hrest

/-- **Spaced words are a splitting**, if their stored texts fit. -/
theorem Written.splits {limit : Nat} {words : List Word} (h : Written words t)
    (hfits : ∀ w ∈ words, w.stored.length ≤ limit) : Splits limit t words := by
  induction h with
  | nil => exact .done .nil
  | @one w run hrun =>
      have hlexes : Lexes limit run [] w := hrun.lexes (hfits w (List.mem_singleton_self w)) nofun
      exact .lexeme (by rw [List.append_nil]; exact .nil) hlexes (.done .nil)
  | @cons w v words run gap rest hrun hgap _ ih =>
      obtain ⟨hw, hfits⟩ := List.forall_mem_cons.mp hfits
      exact .lexeme .nil (hrun.lexes hw (hgap.apart rest)) ((ih hfits).behind (hgap.trivia rest))

namespace Lexer

/-- **Lexing undoes printing.**  Whatever was interned before and however words are laid out, their
tokens are those words and `eof`, where texts are compared and what is stored of each word fits. -/
theorem tokenize_written {limit : Nat} {words : List Word} {text : Text} (history : List Text)
    (h : Written words text) (hfits : ∀ w ∈ words, w.stored.length ≤ limit) :
    ∃ ts l, (ofText text ((Intern.Table.empty .verified).internAll history) limit).tokenize =
      (.ok ts, l) ∧ ts.map (Token.word l.table) = words ++ [⟨.eof, none⟩] := by
  obtain ⟨hpolicy, hhashed⟩ :=
    Intern.Table.internAll_spec (Intern.Table.hashed_empty .verified) history
  exact tokenize_words (h.splits hfits) hhashed hpolicy rfl

/-- A name and a number run into comments, and a `#` stands alone in a comment between `##`. -/
theorem tokenize_written_comments : ∃ ts l,
    (ofText (Text.ofString "x#=\n:=## # ##1_2.5#\r\n\"it's\"\treturn") (.empty .verified)
      6).tokenize = (.ok ts, l) ∧ ts.map (Token.word l.table) =
        [⟨.identifier, some (Text.ofString "x")⟩, ⟨.is, none⟩,
          ⟨.number, some (Text.ofString "12.5")⟩, ⟨.str, some (Text.ofString "$it's")⟩,
          ⟨.returnWord, none⟩, ⟨.eof, none⟩] := by
  have hname : Spelled ⟨.identifier, some (Text.ofString "x")⟩ (Text.ofString "x") := .name rfl
  have his : Spelled ⟨.is, none⟩ (Text.ofString ":=") := @Spelled.operator .is (by decide)
  have hnumber : Spelled ⟨.number, some (Text.ofString "12.5")⟩ (Text.ofString "1_2.5") :=
    .number rfl rfl rfl
  have hstring : Spelled ⟨.str, some (Text.ofString "$it's")⟩ (Text.ofString "\"it's\"") :=
    @Spelled.string 34 (Text.ofString "it's") rfl (by decide) (by decide +kernel)
  have hreturn : Spelled ⟨.returnWord, none⟩ (Text.ofString "return") :=
    @Spelled.keyword .returnWord (by decide)
  have hline : Gap (Text.ofString "#=\n") :=
    .one (@Filler.lineComment [61] 10 (by decide) (List.forall_mem_singleton.mpr rfl) rfl)
  have hblock : Gap (Text.ofString "## # ##") :=
    .one (@Filler.blockComment (Text.ofString " # ") (by decide))
  have hends : Gap (Text.ofString "#\r" ++ [10]) :=
    .cons (.lineComment nofun (List.forall_mem_nil _) rfl) (.one (.blank (.inr rfl)))
  have htab : Gap (Text.ofString "\t") := .one (.blank (.inl rfl))
  exact tokenize_written [] (.cons hname hline (.cons his hblock (.cons hnumber hends
    (.cons hstring htab (.one hreturn))))) (by decide)

end Lexer

end ScriptLang
