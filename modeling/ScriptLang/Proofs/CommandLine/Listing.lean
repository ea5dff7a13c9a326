import Mathlib.Data.List.Forall2
import Mathlib.Data.List.TakeWhile
import ScriptLang.CommandLine.Execution
import ScriptLang.Proofs.Lexer.Texts

/-!
# The columns of the token listing

A line of the token listing is a position, a kind and, for a token with a handle, the text of the
handle.  What is between them is what filling a column leaves of it: eight characters for the
position and twelve for the kind.  A kind with a text is written in at most ten, so a text always
stands apart.  A position is as long as its row and column are: from eight characters on nothing is
left of its column, and the kind follows at once.

`Token.Shown table t gap line` says that `line` is such a line with `gap` blanks before the kind,
and `columns` takes a line apart at its first two runs of blanks.

* `Token.shown_line`: the lines that are printed.
* `Token.columns_line`: a line can be taken apart just if its position is short.
* **The listing** (`Command.tokens_listing`): one line for each token, in order.
* `Command.not_tokens_apart`: in row 1000 and column 100 a kind is not apart from its position.
-/

namespace ScriptLang

/-! ### Columns -/

/-- So many blanks. -/
def blanks (n : Nat) : String := String.ofList (List.replicate n ' ')

/-- A text up to its first blank, and what stands behind the first run of blanks. -/
def splitBlanks (cs : List Char) : List Char × List Char :=
  (cs.takeWhile (· != ' '), (cs.dropWhile (· != ' ')).dropWhile (· == ' '))

/-- The columns of a line: what stands before, between and behind its first two runs of blanks. -/
def columns (line : String) : String × String × String :=
  let first := splitBlanks line.toList
  let second := splitBlanks first.2
  (String.ofList first.1, String.ofList second.1, String.ofList second.2)

theorem toList_padRight (width : Nat) (s : String) :
    (padRight width s).toList = s.toList ++ List.replicate (width - s.length) ' ' := by
  simp [padRight, Padding.apply, String.length_toList]

/-- A column filled up is the column and blanks. -/
theorem padRight_eq (width : Nat) (s : String) :
    padRight width s = s ++ blanks (width - s.length) := by
  rw [← String.toList_inj, toList_padRight, String.toList_append, blanks, String.toList_ofList]

section Blanks

variable {cs rest : List Char}

theorem bne_blank_of_not_mem (h : ' ' ∉ cs) : ∀ c ∈ cs, (c != ' ') = true := by
  intro c hc
  rw [bne_iff_ne]
  rintro rfl
  exact h hc

theorem splitBlanks_of_not_mem (h : ' ' ∉ cs) : splitBlanks cs = (cs, []) := by
  have hall := bne_blank_of_not_mem h
  rw [splitBlanks, List.takeWhile_eq_self_iff.mpr hall, List.dropWhile_eq_nil_iff.mpr hall]
  rfl

/-- Without a blank between them, two texts run together. -/
theorem splitBlanks_fst_append (h : ' ' ∉ cs) (rest : List Char) :
    (splitBlanks (cs ++ rest)).1 = cs ++ (splitBlanks rest).1 :=
  List.takeWhile_append_of_pos (bne_blank_of_not_mem h)

/-- A run of blanks between a text without blanks and one that begins with none. -/
theorem splitBlanks_append (h : ' ' ∉ cs) {n : Nat} (hn : 0 < n)
    (hrest : ∀ c ∈ rest.head?, c ≠ ' ') :
    splitBlanks (cs ++ (List.replicate n ' ' ++ rest)) = (cs, rest) := by
  have hall := bne_blank_of_not_mem h
  have hblanks : ∀ c ∈ List.replicate n ' ', (c == ' ') = true := fun c hc =>
    beq_iff_eq.mpr (List.eq_of_mem_replicate hc)
  obtain ⟨m, rfl⟩ := Nat.exists_eq_succ_of_ne_zero (Nat.ne_of_gt hn)
  rw [splitBlanks, List.takeWhile_append_of_pos hall, List.dropWhile_append_of_pos hall,
    List.replicate_succ, List.cons_append, List.takeWhile_cons_of_neg (by decide),
    List.dropWhile_cons_of_neg (by decide), List.append_nil, ← List.cons_append,
    ← List.replicate_succ, List.dropWhile_append_of_pos hblanks]
  cases rest with
  | nil => rfl
  | cons c rest => rw [List.dropWhile_cons_of_neg (by simpa using hrest c rfl)]

end Blanks

/-! ### Positions and kinds -/

/-- A position is written without blanks and line feeds. -/
theorem Position.not_mem_render (p : Position) :
    ' ' ∉ p.render.toList ∧ '\n' ∉ p.render.toList := by
  have hdigits : ∀ (n : Nat), ∀ c ∈ (toString n).toList, c.isDigit := by
    intro n c hc
    rw [show toString n = n.repr from rfl, Nat.toList_repr] at hc
    exact Nat.isDigit_of_mem_toDigits (by decide) (by decide) hc
  have hchars : ∀ c ∈ p.render.toList, c.isDigit ∨ c = ':' := by
    intro c hc
    rw [render, String.toList_append, String.toList_append, List.mem_append, List.mem_append] at hc
    rcases hc with (hc | hc) | hc
    · exact .inl (hdigits p.row c hc)
    · exact .inr (List.mem_singleton.mp hc)
    · exact .inl (hdigits p.col c hc)
  exact ⟨fun h => absurd (hchars _ h) (by decide), fun h => absurd (hchars _ h) (by decide)⟩

namespace TokenKind

/-- A kind is written without blanks and line feeds. -/
theorem not_mem_spelling (kind : TokenKind) :
    ' ' ∉ kind.spelling.toList ∧ '\n' ∉ kind.spelling.toList := by
  cases kind <;> decide

theorem spelling_ne_nil (kind : TokenKind) : kind.spelling.toList ≠ [] := by
  cases kind <;> decide

/-- A kind leaves something of its column. -/
theorem length_spelling_lt (kind : TokenKind) : kind.spelling.length < 12 := by
  cases kind <;> decide

theorem head?_spelling (kind : TokenKind) (cs : List Char) :
    ∀ c ∈ (kind.spelling.toList ++ cs).head?, c ≠ ' ' := by
  intro c hc heq
  rw [List.head?_append_of_ne_nil _ kind.spelling_ne_nil] at hc
  exact kind.not_mem_spelling.1 (heq ▸ List.mem_of_mem_head? hc)

end TokenKind

/-! ### Lines -/

namespace Token

variable {table : Intern.Table} {t : Token}

/-- `line` shows a token: its position, `gap` blanks, its kind and, if it has a handle, one or more
blanks and the text of the handle. -/
inductive Shown (table : Intern.Table) (t : Token) (gap : Nat) : String → Prop where
  | kind (hvalue : t.value = none) :
      Shown table t gap (t.pos.render ++ blanks gap ++ t.kind.spelling)
  | text {s : Symbol} {text : String} {more : Nat} (hvalue : t.value = some s)
      (hget : table.get? s = some (Text.ofString text)) (hmore : 0 < more) :
      Shown table t gap (t.pos.render ++ blanks gap ++ t.kind.spelling ++ blanks more ++ text)

/-- The width of the gap is all that lines for a token without a handle differ in. -/
theorem Shown.length_eq {gap : Nat} {line : String} (h : t.Shown table gap line)
    (hvalue : t.value = none) :
    line.length = t.pos.render.length + gap + t.kind.spelling.length := by
  cases h with
  | kind => simp [blanks, String.length_append, Nat.add_assoc]
  | text hsome => cases hvalue.symm.trans hsome

/-- The text of a token as a line shows it. -/
def shownText (table : Intern.Table) (t : Token) : String :=
  match t.value with
  | some s => ((table.get? s).getD []).toString
  | none => ""

/-- A line of the listing without its end. -/
def line (table : Intern.Table) (t : Token) : String :=
  t.pos.render ++ blanks (8 - t.pos.render.length) ++ t.kind.spelling ++
    match t.value with
    | some _ => blanks (12 - t.kind.spelling.length) ++ t.shownText table
    | none => ""

/-- What is printed for a token is a line and its end. -/
theorem listing_eq (table : Intern.Table) (t : Token) : t.listing table = t.line table ++ "\n" := by
  unfold listing line shownText
  cases t.value with
  | none => simp only [padRight_eq, String.append_empty]
  | some s => simp only [padRight_eq, String.append_assoc]

/-- The text of the handle, if there is one, can be shown. -/
def Showable (table : Intern.Table) (t : Token) : Prop :=
  ∀ s, t.value = some s →
    ∃ shown, table.get? s = some (Text.ofString shown) ∧ (Text.ofString shown).Shows shown

/-- **The lines that are printed.** -/
theorem shown_line (h : t.Showable table) :
    t.Shown table (8 - t.pos.render.length) (t.line table) := by
  cases hvalue : t.value with
  | none =>
      simp only [line, hvalue, String.append_empty]
      exact .kind hvalue
  | some s =>
      obtain ⟨shown, hget, -⟩ := h s hvalue
      simp only [line, shownText, hvalue, hget, Option.getD_some, Text.toString_ofString,
        ← String.append_assoc]
      exact .text hvalue hget (Nat.sub_pos_of_lt t.kind.length_spelling_lt)

/-- Behind a position that fills its column, less is printed than a blank would need. -/
theorem length_listing_lt {gap : Nat} {line : String} (h : t.Shown table gap line) (hgap : 0 < gap)
    (hvalue : t.value = none) (hlong : 8 ≤ t.pos.render.length) :
    (t.listing table).length < (line ++ "\n").length := by
  have hshowable : t.Showable table := fun s hs => by cases hvalue.symm.trans hs
  have hline := (shown_line hshowable).length_eq hvalue
  rw [listing_eq, String.length_append, String.length_append, h.length_eq hvalue, hline]
  omega

/-- What stands behind the kind. -/
def tail (table : Intern.Table) (t : Token) : List Char :=
  match t.value with
  | some _ => List.replicate (12 - t.kind.spelling.length) ' ' ++ (t.shownText table).toList
  | none => []

theorem toList_line (table : Intern.Table) (t : Token) :
    (t.line table).toList = t.pos.render.toList ++
      (List.replicate (8 - t.pos.render.length) ' ' ++
        (t.kind.spelling.toList ++ t.tail table)) := by
  unfold line tail
  cases t.value <;> simp [blanks]

/-- A kind and its text are apart. -/
theorem splitBlanks_tail (h : t.Showable table) :
    splitBlanks (t.kind.spelling.toList ++ t.tail table) =
      (t.kind.spelling.toList, (t.shownText table).toList) := by
  cases hvalue : t.value with
  | none =>
      simp only [tail, shownText, hvalue, List.append_nil]
      exact splitBlanks_of_not_mem t.kind.not_mem_spelling.1
  | some s =>
      obtain ⟨shown, hget, -, ⟨c, hc, hne⟩, -⟩ := h s hvalue
      simp only [tail, shownText, hvalue, hget, Option.getD_some, Text.toString_ofString]
      refine splitBlanks_append t.kind.not_mem_spelling.1
        (Nat.sub_pos_of_lt t.kind.length_spelling_lt) fun d hd => ?_
      cases Option.some.inj (hc.symm.trans hd)
      exact hne

/-- **A line can be taken apart** into position, kind and text just if its position has fewer
characters than its column. -/
theorem columns_line (h : t.Showable table) :
    columns (t.line table) = (t.pos.render, t.kind.spelling, t.shownText table) ↔
      t.pos.render.length < 8 := by
  have hblank := t.pos.not_mem_render.1
  constructor
  · intro heq
    by_contra hlong
    -- Nothing is left of the column, so the kind goes on with the position.
    have hfirst : (splitBlanks (t.line table).toList).1 =
        t.pos.render.toList ++ t.kind.spelling.toList := by
      have hkind := congrArg Prod.fst (splitBlanks_tail h)
      rw [toList_line, Nat.sub_eq_zero_of_le (Nat.le_of_not_lt hlong), List.replicate_zero,
        List.nil_append, splitBlanks_fst_append hblank, hkind]
    have hcolumn := congrArg Prod.fst heq
    simp only [columns] at hcolumn
    rw [hfirst, ← String.toList_inj, String.toList_ofList, List.append_right_eq_self] at hcolumn
    exact t.kind.spelling_ne_nil hcolumn
  · intro hshort
    have hsplit := splitBlanks_append hblank (Nat.sub_pos_of_lt hshort)
      (t.kind.head?_spelling (t.tail table))
    rw [columns, toList_line, hsplit, splitBlanks_tail h]
    simp only [String.ofList_toList]

/-- A line is one line. -/
theorem not_mem_line (h : t.Showable table) : '\n' ∉ (t.line table).toList := by
  rw [toList_line]
  simp only [List.mem_append, not_or, List.mem_replicate]
  refine ⟨t.pos.not_mem_render.2, by simp, t.kind.not_mem_spelling.2, ?_⟩
  cases hvalue : t.value with
  | none => simp [tail, hvalue]
  | some s =>
      obtain ⟨shown, hget, -, -, hline⟩ := h s hvalue
      simp only [tail, shownText, hvalue, hget, Option.getD_some, Text.toString_ofString,
        List.mem_append, not_or, List.mem_replicate]
      exact ⟨by simp, hline⟩

end Token

/-! ### The listing -/

namespace Command

theorem onSource_tokens (path : String) {options : LexerOptions} {source : Text} {ts : List Token}
    {l : Lexer} (h : (Lexer.start source options).tokenize = (.ok ts, l)) :
    tokens.onSource path options source =
      .report (String.join (ts.map (Token.listing l.table))) := by
  simp only [onSource, h]

/-- **The listing.**  If a source can be read, its listing is one line for each token, in order,
each with its end and no other line feed.  A line shows the position of its token in decimal, the
kind and, if the token has a handle, the text of the handle, which stands apart from the kind.  The
kind stands apart from the position by what is left of eight characters.  So a line can be taken
apart again at its first two runs of blanks just if the position has at most seven. -/
theorem tokens_listing (path : String) (options : LexerOptions) (source : String)
    {ts : List Token} {l : Lexer}
    (h : (Lexer.start (Text.ofString source) options).tokenize = (.ok ts, l)) :
    ∃ lines : List String,
      tokens.onSource path options (Text.ofString source) =
        .report (String.join (lines.map (· ++ "\n"))) ∧
      (∀ line ∈ lines, '\n' ∉ line.toList) ∧
      List.Forall₂ (fun t line => t.Shown l.table (8 - t.pos.render.length) line ∧
        (columns line = (t.pos.render, t.kind.spelling, t.shownText l.table) ↔
          t.pos.render.length < 8)) ts lines := by
  have hshows : ∀ t ∈ ts, t.Showable l.table := fun t ht s hs => Lexer.shows_of_tokenize h ht hs
  refine ⟨ts.map (Token.line l.table), ?_, ?_, ?_⟩
  · rw [onSource_tokens path h, List.map_map]
    congr 2
    exact List.map_congr_left fun t _ => t.listing_eq l.table
  · rw [List.forall_mem_map]
    exact fun t ht => Token.not_mem_line (hshows t ht)
  · rw [List.forall₂_map_right_iff, List.forall₂_same]
    exact fun t ht => ⟨Token.shown_line (hshows t ht), Token.columns_line (hshows t ht)⟩

/-- A string with a letter of two bytes. -/
theorem tokens_listing_accent : ∃ ts l, ∃ lines : List String,
    (Lexer.start (Text.ofString "'é';") {}).tokenize = (.ok ts, l) ∧
      tokens.onSource "main" {} (Text.ofString "'é';") =
        .report (String.join (lines.map (· ++ "\n"))) ∧
      lines.map columns = [("1:1", "STRING", "$é"), ("1:5", ";", ""), ("1:6", "EOF", "")] := by
  have htokens : (Lexer.start (Text.ofString "'é';") {}).tokenize =
      (.ok [⟨.str, some ⟨0⟩, ⟨1, 1⟩⟩, ⟨.semicolon, none, ⟨1, 5⟩⟩, ⟨.eof, none, ⟨1, 6⟩⟩],
        ⟨⟨⟨[], ⟨1, 6⟩⟩, [], 31⟩, ⟨.hashOnly, [.ofText (Text.ofString "$é")]⟩, true⟩) := by
    cbv
  obtain ⟨lines, hreport, -, hlines⟩ := tokens_listing "main" {} "'é';" htokens
  refine ⟨_, _, lines, htokens, hreport, ?_⟩
  simp only [List.forall₂_cons_left_iff, List.forall₂_nil_left_iff] at hlines
  obtain ⟨string, _, ⟨-, hstring⟩, ⟨sign, _, ⟨-, hsign⟩, ⟨last, _, ⟨-, hlast⟩, rfl, rfl⟩, rfl⟩,
    rfl⟩ := hlines
  rw [List.map_cons, List.map_cons, List.map_cons, hstring.mpr (by decide),
    hsign.mpr (by decide), hlast.mpr (by decide)]
  rfl

end Command

/-! ### A position that fills its column -/

/-- Lines and blanks are trivia. -/
theorem Trivia.of_blanks {gap : Text} (h : ∀ b ∈ gap, isBlank b ∨ isLineEnd b) (rest : Text) :
    Trivia (gap ++ rest) rest := by
  induction gap with
  | nil => exact .nil
  | cons b gap ih =>
      obtain ⟨hb, hgap⟩ := List.forall_mem_cons.mp h
      rw [← List.singleton_append, List.append_assoc]
      exact .cons (.blank hb) (ih hgap)

/-- Lines before blanks. -/
theorem Position.after_lines (row n m : Nat) :
    (⟨row, 1⟩ : Position).after (List.replicate n 10 ++ List.replicate m 32) =
      ⟨row + n, 1 + m⟩ := by
  induction n generalizing row with
  | zero =>
      have hcolumns : ∀ b ∈ List.replicate m (32 : UInt8), isLineEnd b = false := fun b hb => by
        rw [List.eq_of_mem_replicate hb]
        rfl
      rw [List.replicate_zero, List.nil_append, after_eq_right hcolumns, List.length_replicate]
      rfl
  | succ n ih =>
      have hnext : ∀ c ∈ (List.replicate n (10 : UInt8) ++ List.replicate m 32).head?,
          isLineEnd c → c = 10 := by
        intro c hc hend
        rcases List.mem_append.mp (List.mem_of_mem_head? hc) with hc | hc
        · exact List.eq_of_mem_replicate hc
        · rw [List.eq_of_mem_replicate hc] at hend
          cases hend
      rw [List.replicate_succ, List.cons_append, after_lineEnd rfl hnext, nextLine, ih,
        Nat.add_right_comm, Nat.add_assoc]

/-- A source with a semicolon behind `n` lines and `m` blanks. -/
def semicolonAt (n m : Nat) : String :=
  String.ofList (List.replicate n '\n' ++ List.replicate m ' ' ++ [';'])

theorem ofString_semicolonAt (n m : Nat) : Text.ofString (semicolonAt n m) =
    (List.replicate n 10 ++ List.replicate m 32) ++ ([59] ++ []) := by
  have hencode : String.utf8EncodeChar '\n' = [10] ∧ String.utf8EncodeChar ' ' = [32] ∧
      String.utf8EncodeChar ';' = [59] := ⟨rfl, rfl, rfl⟩
  simp [Text.ofString, semicolonAt, List.flatMap_replicate, hencode]

/-- The semicolon stands where the lines and blanks have moved it, and nothing else is read. -/
theorem Lexer.tokenize_semicolonAt (n m : Nat) (options : LexerOptions) :
    ∃ l, (Lexer.start (Text.ofString (semicolonAt n m)) options).tokenize =
      (.ok [⟨.semicolon, none, ⟨1 + n, 1 + m⟩⟩, ⟨.eof, none, ⟨1 + n, 1 + m + 1⟩⟩], l) := by
  have hgap : ∀ b ∈ List.replicate n (10 : UInt8) ++ List.replicate m 32,
      isBlank b ∨ isLineEnd b := by
    intro b hb
    rcases List.mem_append.mp hb with hb | hb <;> rw [List.eq_of_mem_replicate hb]
    · exact .inr rfl
    · exact .inl rfl
  have hlexes : Lexes options.bufferLength [59] [] ⟨.semicolon, none⟩ :=
    @Lexes.operator _ .semicolon [] (by decide) (by decide)
  have hlayout : Layout options.bufferLength _ ⟨1, 1⟩ _ _ :=
    .lexeme (Trivia.of_blanks hgap _) hlexes (.done .nil)
  rw [← ofString_semicolonAt, Position.after_lines] at hlayout
  obtain ⟨l, htokens, -⟩ := Lexer.tokenize_of_layout hlayout
    (l := .start (Text.ofString (semicolonAt n m)) options) rfl
  exact ⟨l, htokens⟩

/-- **A kind runs into its position**: not every listing has a blank between the position and the
kind of each token.  In row 1000 and column 100 the position fills its column. -/
theorem Command.not_tokens_apart :
    ¬ ∀ (path : String) (options : LexerOptions) (source : String) (ts : List Token) (l : Lexer),
      (Lexer.start (Text.ofString source) options).tokenize = (.ok ts, l) →
      ∃ lines : List String,
        Command.tokens.onSource path options (Text.ofString source) =
          .report (String.join (lines.map (· ++ "\n"))) ∧
        List.Forall₂ (fun t line => ∃ gap, 0 < gap ∧ t.Shown l.table gap line) ts lines := by
  intro h
  obtain ⟨l, htokens⟩ := Lexer.tokenize_semicolonAt 999 99 {}
  obtain ⟨lines, hreport, hlines⟩ := h "main" {} _ _ l htokens
  simp only [List.forall₂_cons_left_iff, List.forall₂_nil_left_iff] at hlines
  obtain ⟨sign, _, ⟨m, hm, hsign⟩, ⟨last, _, ⟨n, hn, hlast⟩, rfl, rfl⟩, rfl⟩ := hlines
  have hsignLength := Token.length_listing_lt hsign hm rfl (by decide)
  have hlastLength := Token.length_listing_lt hlast hn rfl (by decide)
  have hlength := congrArg String.length
    (Outcome.report.inj ((Command.onSource_tokens "main" htokens).symm.trans hreport))
  simp only [String.length_join, List.map_cons, List.map_nil, List.sum_cons, List.sum_nil]
    at hlength
  omega

end ScriptLang
