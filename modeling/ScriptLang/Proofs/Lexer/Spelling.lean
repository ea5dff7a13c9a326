import ScriptLang.Proofs.Lexer.Splitting

/-!
# How words are spelled

Every word that can be read at all has a spelling, and a source that spells words with a space
between them is read as those words.  A number and a string have more spellings than one.

* `Spelled.lexes`: a spelling of a word before trivia or the end is a lexeme of it.
* `Lexer.tokenize_words`: where texts are compared, tokens are the words of their lexemes.
* `Lexer.tokenize_render`: the tokens of spelled words are those words.

A lexeme is read into a bounded buffer whether its text is kept or not, so a word is read back only
if it fits: a text with the mark of a string, and the letters of a keyword.
-/

namespace ScriptLang

/-- The word of a token, its text taken from the table. -/
def Token.word (table : Intern.Table) (t : Token) : Word :=
  { kind := t.kind, text := t.value.bind table.get? }

/-! ### Texts -/

/-- A letter followed by letters and `_`, and no keyword. -/
def isName : Text → Bool
  | [] => false
  | b :: rest => isLetter b && rest.all isWordByte && (TokenKind.keyword? (b :: rest)).isNone

/-- A digit followed by letters, digits and at most one point. -/
def isNumeral : Text → Bool
  | [] => false
  | b :: rest => isDigit b && rest.all (fun c => isLetter c || isDigit c || isPoint c) &&
      rest.countP isPoint ≤ 1

/-- The mark of strings followed by a text on one line that at most one of the quotes is in. -/
def isMarkedString : Text → Bool
  | [] => false
  | b :: body => b == stringMark && body.all (fun c => !isLineEnd c) &&
      !(body.contains 34 && body.contains 39)

namespace Word

/-- A quote that is not in a text, if the text does not have both. -/
def quote (body : Text) : UInt8 := if body.contains 34 then 39 else 34

/-- How a word is written. -/
def spelling (w : Word) : Text :=
  match w.text with
  | none => Text.ofString w.kind.spelling
  | some text =>
    if w.kind = .str then quote text.tail :: (text.tail ++ [quote text.tail]) else text

/-- Whether a word has a text of its kind, of at most so many bytes. -/
def wellFormed (limit : Nat) (w : Word) : Bool :=
  match w.text with
  | none => !w.kind.hasValue && w.kind != .eof
  | some text =>
    text.length ≤ limit &&
      match w.kind with
      | .identifier => isName text
      | .number => isNumeral text
      | .str => isMarkedString text
      | _ => false

/-- Whether a word, if it is a keyword, has at most so many letters. -/
def keywordFits (limit : Nat) (w : Word) : Bool :=
  !TokenKind.keywords.contains w.kind || (Text.ofString w.kind.spelling).length ≤ limit

end Word

/-- The texts that spell a word.  A number may have separators behind its first digit, and a string
stands in a quote that is not in it. -/
inductive Spelled : Word → Text → Prop where
  | operator {kind : TokenKind} (hkind : kind ∈ TokenKind.operators) :
      Spelled ⟨kind, none⟩ (Text.ofString kind.spelling)
  | keyword {kind : TokenKind} (hkind : kind ∈ TokenKind.keywords) :
      Spelled ⟨kind, none⟩ (Text.ofString kind.spelling)
  | name {text : Text} (htext : isName text) : Spelled ⟨.identifier, some text⟩ text
  | number {text run : Text} (htext : isNumeral text) (hfirst : run.head? = text.head?)
      (hrun : unseparated run = text) : Spelled ⟨.number, some text⟩ run
  | string {quote : UInt8} {body : Text} (hquote : isQuote quote) (hmem : quote ∉ body)
      (hline : ∀ b ∈ body, isLineEnd b = false) :
      Spelled ⟨.str, some (stringMark :: body)⟩ (quote :: (body ++ [quote]))

/-! ### Reading one word -/

/-- Nothing, or a byte that begins no token. -/
def Apart (t : Text) : Prop := ∀ b ∈ t.head?, beginsToken b = false

theorem beginsToken_of_isNumberByte {b : UInt8} (h : isNumberByte b || isPoint b) :
    beginsToken b := by
  simp only [isNumberByte, isLetter, isDigit, isUnderscore, isPoint, Bool.or_eq_true,
    Bool.and_eq_true, decide_eq_true_eq, beq_iff_eq] at h
  simp [beginsToken, isLineEnd, isBlank, hashMark]
  grind

/-- Bytes of a class that begin tokens do not go on where no token begins. -/
theorem Apart.stopsAt {rest : Text} (h : Apart rest) {p : UInt8 → Bool}
    (hp : ∀ b, p b → beginsToken b) : stopsAt p rest := by
  cases rest with
  | nil => exact stopsAt_nil
  | cons b rest =>
      rw [stopsAt_cons, Bool.eq_false_iff]
      intro hb
      exact absurd (hp b hb) (by rw [h b rfl]; nofun)

/-- A numeral begins with a digit and has letters, digits and at most one point. -/
theorem isNumeral_eq (text : Text) : isNumeral text = (text.head?.any isDigit &&
    text.all (fun b => isLetter b || isDigit b || isPoint b) && text.countP isPoint ≤ 1) := by
  cases text with
  | nil => rfl
  | cons b tail =>
      have hpoint (hb : isDigit b) : isPoint b = false := by
        rw [isPoint, beq_eq_false_iff_ne]
        rintro rfl
        cases hb
      cases hb : isDigit b with
      | false => simp [isNumeral, hb]
      | true => simp [isNumeral, hb, hpoint hb]

/-- A numeral with separators behind its first digit is a number. -/
theorem isFigures_of_isNumeral {run : Text} (h : isNumeral (unseparated run))
    (hfirst : run.head? = (unseparated run).head?) : isFigures run := by
  rw [isNumeral_eq, ← hfirst, Bool.and_eq_true, Bool.and_eq_true, decide_eq_true_eq,
    unseparated, List.countP_filter] at h
  obtain ⟨⟨hdigit, hall⟩, hcount⟩ := h
  have hbytes : run.all fun b => isNumberByte b || isPoint b := by
    rw [List.all_eq_true] at hall ⊢
    intro b hb
    by_cases hsep : isUnderscore b
    · simp [isNumberByte, hsep]
    · have hkept := hall b (List.mem_filter.mpr ⟨hb, by simpa using hsep⟩)
      simp only [Bool.or_eq_true] at hkept
      rcases hkept with (h | h) | h <;> simp [isNumberByte, h]
  -- A point is no separator, so all points are counted.
  have hpoints : run.countP isPoint = run.countP fun b => isPoint b && !isUnderscore b := by
    refine congrArg (List.countP · run) (funext fun b => ?_)
    rw [Bool.eq_self_and, isPoint, beq_iff_eq]
    rintro rfl
    rfl
  rw [isFigures, hdigit, hbytes, hpoints]
  simpa using hcount

/-- **A spelling of a word** before trivia or the end is a lexeme of that word. -/
theorem Spelled.lexes {limit : Nat} {w : Word} {run rest : Text} (h : Spelled w run)
    (hw : w.stored.length ≤ limit) (hrest : Apart rest) : Lexes limit run rest w := by
  have hnumber : ScriptLang.stopsAt (fun b => isNumberByte b || isPoint b) rest :=
    hrest.stopsAt fun _ => beginsToken_of_isNumberByte
  have hword : ScriptLang.stopsAt isWordByte rest := hrest.stopsAt fun b hb =>
    beginsToken_of_isNumberByte (by
      rw [isWordByte, Bool.or_eq_true] at hb
      rcases hb with h | h <;> simp [isNumberByte, h])
  cases h with
  | operator hkind => exact .operator hkind fun _ heq => absurd (hrest _ heq) (by decide)
  | keyword hkind =>
      rw [Word.stored, if_pos hkind] at hw
      exact .keyword hkind hw hword
  | name htext =>
      cases run with
      | nil => cases htext
      | cons b tail =>
          simp only [isName, Bool.and_eq_true, Option.isNone_iff_eq_none] at htext
          obtain ⟨⟨hb, htail⟩, hkey⟩ := htext
          have hletters : isLetters (b :: tail) := by simp [isLetters, isWordByte, hb, htail]
          exact .identifier hletters (TokenKind.keyword?_eq_none_iff.mp hkey) hw hword
  | number htext hfirst hrun =>
      subst hrun
      exact .number (isFigures_of_isNumeral htext hfirst) hw hnumber
  | @string quote body hquote hmem hline =>
      refine .string hquote (List.all_eq_true.mpr fun b hb => ?_) hw
      have hne : b ≠ quote := ne_of_mem_of_not_mem hb hmem
      simp [isStringByte, hne, hline b hb]

/-- The quote that is chosen for a string is not in it. -/
theorem Word.quote_spec {body : Text} (hquotes : !(body.contains 34 && body.contains 39)) :
    isQuote (quote body) ∧ quote body ∉ body := by
  unfold quote
  split
  next h =>
    simp only [List.contains_eq_mem, decide_eq_true_eq] at h
    simp only [List.contains_eq_mem, h, decide_true, Bool.true_and, Bool.not_eq_true',
      decide_eq_false_iff_not] at hquotes
    exact ⟨rfl, hquotes⟩
  next h => exact ⟨rfl, by simpa using h⟩

/-- What has no text and is no keyword is an operator or a delimiter, the end of the source
apart. -/
theorem mem_operators {kind : TokenKind} (hv : kind.hasValue = false) (he : kind ≠ .eof)
    (hk : kind ∉ TokenKind.keywords) : kind ∈ TokenKind.operators := by
  cases kind with
  | eof => exact absurd rfl he
  | identifier | number | str => cases hv
  | defWord | whenWord | whileWord | partialWord | returnWord | trueWord | falseWord | nilWord =>
      exact absurd (by decide) hk
  | _ => decide

/-- A numeral has no separators. -/
theorem unseparated_of_isNumeral {t : Text} (h : isNumeral t) : unseparated t = t := by
  rw [isNumeral_eq, Bool.and_eq_true, Bool.and_eq_true] at h
  refine List.filter_eq_self.mpr fun b hb => ?_
  rw [Bool.not_eq_true', isUnderscore, beq_eq_false_iff_ne]
  rintro rfl
  exact absurd (List.all_eq_true.mp h.1.2 95 hb) (by decide)

theorem Word.spelled_spelling {limit : Nat} {w : Word} (hw : w.wellFormed limit) :
    Spelled w w.spelling := by
  obtain ⟨kind, text⟩ := w
  cases text with
  | none =>
      simp only [wellFormed, Bool.and_eq_true, Bool.not_eq_true', bne_iff_ne] at hw
      by_cases hkey : kind ∈ TokenKind.keywords
      · exact .keyword hkey
      · exact .operator (mem_operators hw.1 hw.2 hkey)
  | some text =>
      simp only [wellFormed, Bool.and_eq_true] at hw
      obtain ⟨-, hw⟩ := hw
      cases kind with
      | identifier => exact .name hw
      | number => exact .number hw rfl (unseparated_of_isNumeral hw)
      | str =>
          cases text with
          | nil => cases hw
          | cons b body =>
              simp only [isMarkedString, Bool.and_eq_true, beq_iff_eq] at hw
              obtain ⟨⟨rfl, hline⟩, hquotes⟩ := hw
              obtain ⟨hquote, hmem⟩ := quote_spec hquotes
              exact .string hquote hmem (by simpa using hline)
      | _ => cases hw

/-- A well-formed word fits the buffer if its keyword does. -/
theorem Word.stored_le {limit : Nat} {w : Word} (hw : w.wellFormed limit)
    (hk : w.keywordFits limit) : w.stored.length ≤ limit := by
  obtain ⟨kind, text⟩ := w
  cases text with
  | none =>
      by_cases hkey : kind ∈ TokenKind.keywords
      · rw [stored, if_pos hkey]
        simpa [keywordFits, hkey] using hk
      · rw [stored, if_neg hkey]
        exact Nat.zero_le limit
  | some text =>
      simp only [wellFormed, Bool.and_eq_true, decide_eq_true_eq] at hw
      exact hw.1

/-- Nothing, or something after a space. -/
def Spaced (t : Text) : Prop := t = [] ∨ ∃ rest, t = 32 :: rest

theorem Spaced.apart {t : Text} (h : Spaced t) : Apart t := by
  rcases h with rfl | ⟨rest, rfl⟩
  · nofun
  · rintro _ ⟨⟩
    rfl

theorem trivia_space {sep : Text} (h : sep = [] ∨ sep = [32]) (t : Text) : Trivia (sep ++ t) t := by
  rcases h with rfl | rfl
  · exact .nil
  · exact .cons (.blank (.inl rfl)) .nil

/-- The spelling of a word before a space or the end is a lexeme of that word. -/
theorem lexes_spelling {limit : Nat} {w : Word} {rest : Text} (hw : w.wellFormed limit)
    (hk : w.keywordFits limit) (hrest : Spaced rest) : Lexes limit w.spelling rest w :=
  (Word.spelled_spelling hw).lexes (Word.stored_le hw hk) hrest.apart

/-! ### Reading all words -/

/-- The text that spells words with a space between them. -/
def render (words : List Word) : Text := [32].intercalate (words.map Word.spelling)

/-- Texts that spell words one after another, with or without a space before the first. -/
inductive Spells : List Word → Text → Prop where
  | nil : Spells [] []
  | cons {w : Word} {words : List Word} {sep rest : Text} (hsep : sep = [] ∨ sep = [32])
      (hrest : Spaced rest) (h : Spells words rest) :
      Spells (w :: words) (sep ++ (w.spelling ++ rest))

theorem spells_render (words : List Word) : Spells words (render words) := by
  -- All words but the first stand behind a space, so both kinds of text go through the induction.
  suffices h : ∀ w words, Spells (w :: words) (render (w :: words)) ∧
      Spells (w :: words) (32 :: render (w :: words)) by
    cases words with
    | nil => exact .nil
    | cons w words => exact (h w words).1
  intro w words
  induction words generalizing w with
  | nil =>
      have hrender : render [w] = w.spelling ++ [] := by simp [render]
      rw [hrender]
      exact ⟨.cons (.inl rfl) (.inl rfl) .nil, .cons (.inr rfl) (.inl rfl) .nil⟩
  | cons v words ih =>
      have hrender : render (w :: v :: words) = w.spelling ++ 32 :: render (v :: words) := by
        simp [render, List.intercalate_cons_cons]
      rw [hrender]
      exact ⟨.cons (.inl rfl) (.inr ⟨_, rfl⟩) (ih v).2, .cons (.inr rfl) (.inr ⟨_, rfl⟩) (ih v).2⟩

/-- **Spelled words are a splitting**, if they are well formed and their keywords fit. -/
theorem Spells.splits {limit : Nat} {words : List Word} {text : Text} (h : Spells words text)
    (hw : ∀ w ∈ words, w.wellFormed limit ∧ w.keywordFits limit) : Splits limit text words := by
  induction h with
  | nil => exact .done .nil
  | @cons w _ _ _ hsep hrest _ ih =>
      obtain ⟨hwf, hfits⟩ := hw w (List.mem_cons_self ..)
      exact .lexeme (trivia_space hsep _) (lexes_spelling hwf hfits hrest)
        (ih fun v hv => hw v (List.mem_cons_of_mem _ hv))

/-- Where texts are compared, a token that denotes a word is that word. -/
theorem Token.Denotes.word_eq {table : Intern.Table} {t : Token} {w : Word}
    (h : t.Denotes .verified table w) : t.word table = w := by
  obtain ⟨kind, text⟩ := w
  obtain ⟨hkind, htext⟩ := h
  cases text with
  | none => simp_all [Token.word]
  | some text =>
      obtain ⟨symbol, stored, hvalue, hget, rfl⟩ := htext
      simp_all [Token.word]

namespace Lexer

/-- Where texts are compared, the tokens of a text are the words of its lexemes. -/
theorem tokenize_words {limit : Nat} {t : Text} {words : List Word} (h : Splits limit t words)
    {l : Lexer} {p : Position} (hl : l.table.Hashed) (hpolicy : l.table.policy = .verified)
    (hs : l.scanner = ⟨⟨t, p⟩, [], limit⟩) :
    ∃ ts l', l.tokenize = (.ok ts, l') ∧
      ts.map (Token.word l'.table) = words ++ [⟨.eof, none⟩] := by
  obtain ⟨ts, l', hts, -, hall⟩ := tokenize_of_splits h hl hs
  rw [hpolicy] at hall
  have hwords : List.Forall₂ (· = ·) (ts.map (Token.word l'.table)) (words ++ [⟨.eof, none⟩]) :=
    List.forall₂_map_left_iff.mpr (hall.imp fun _ _ h => h.word_eq)
  exact ⟨ts, l', hts, List.forall₂_eq_eq_eq ▸ hwords⟩

/-- **The tokens of spelled words are those words**, where texts are compared and all words fit. -/
theorem tokenize_render {limit : Nat} {words : List Word}
    (hw : ∀ w ∈ words, w.wellFormed limit ∧ w.keywordFits limit) :
    ∃ ts l, (start (render words) { bufferLength := limit, policy := .verified }).tokenize =
      (.ok ts, l) ∧ ts.map (Token.word l.table) = words ++ [⟨.eof, none⟩] :=
  tokenize_words ((spells_render words).splits hw) (Intern.Table.hashed_empty _) rfl rfl

end Lexer

end ScriptLang
