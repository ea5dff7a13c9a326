import ScriptLang.Proofs.Intern.History
import ScriptLang.Proofs.Lexer.Splitting

/-!
# Where the lexemes of a source stand

A position is counted from the position before it and the text in between: `Position.after p t` is
where a text that begins at `p` ends.  `Layout limit t p xs e` says that a text at `p` is trivia and
the lexemes `xs`, each at its place, and ends at `e`.  It is a splitting with the places filled in.

* `triviaFrom_after`: the cursor counts rows and columns in this way.
* `Lexer.tokenize_of_layout`: the tokens of a source are the lexemes of its layout, interned.
* `Layout.move`: a map of positions that respects lines moves a layout.
* **Joining** (`Layout.join`).  Two texts with a line end and a sign between them have the layout of
  the first and, behind the sign, that of the second.
-/

namespace ScriptLang

/-! ### Positions -/

/-- Where a text that begins at `p` ends.  The line ends CR LF and LF CR count as one. -/
def Position.after (p : Position) : Text → Position
  | [] => p
  | [b] => if isLineEnd b then p.nextLine else p.right 1
  | b :: c :: t =>
    if isLineEnd b then
      if isLineEnd c && c != b then p.nextLine.after t else p.nextLine.after (c :: t)
    else (p.right 1).after (c :: t)

namespace Position

theorem after_cons {b : UInt8} (hb : isLineEnd b = false) (p : Position) (t : Text) :
    p.after (b :: t) = (p.right 1).after t := by
  cases t with
  | nil => simp [after, hb]
  | cons c t => simp [after, hb]

/-- A line end alone begins a line. -/
theorem after_lineEnd {b : UInt8} {t : Text} (hb : isLineEnd b)
    (ht : ∀ c ∈ t.head?, isLineEnd c → c = b) (p : Position) :
    p.after (b :: t) = p.nextLine.after t := by
  cases t with
  | nil => simp [after, hb]
  | cons c t =>
      have hc : ¬ (isLineEnd c && c != b) := by
        rw [Bool.and_eq_true, bne_iff_ne]
        exact fun hc => hc.2 (ht c rfl hc.1)
      rw [after, if_pos hb, if_neg hc]

/-- Two different line ends in a row are one newline. -/
theorem after_pair {b c : UInt8} (hb : isLineEnd b) (hc : isLineEnd c) (hne : c ≠ b)
    (p : Position) (t : Text) : p.after (b :: c :: t) = p.nextLine.after t := by
  simp [after, hb, hc, hne]

/-- A map of positions respects lines from the first on: it commutes with steps to the right and to
the next line. -/
structure RespectsLines (g : Position → Position) : Prop where
  right : ∀ p n, g (p.right n) = (g p).right n
  nextLine : ∀ p, 1 ≤ p.row → g p.nextLine = (g p).nextLine

theorem one_le_row_after {p : Position} (hp : 1 ≤ p.row) (t : Text) : 1 ≤ (p.after t).row := by
  fun_induction after p t with
  | case1 => exact hp
  | case2 => exact Nat.le_succ_of_le hp
  | case3 => exact hp
  | case4 _ _ _ _ _ _ ih | case5 _ _ _ _ _ _ ih => exact ih (Nat.le_succ_of_le hp)
  | case6 _ _ _ _ _ ih => exact ih hp

/-- Behind a line end a line begins. -/
theorem col_after_lineEnd {b : UInt8} (hb : isLineEnd b) (p : Position) (t : Text) :
    (p.after (t ++ [b])).col = 1 := by
  fun_induction after p t with
  | case1 p => simp [after, hb, nextLine]
  | case2 p c hc =>
      by_cases hne : b = c
      · subst hne
        simp [after, hb, nextLine]
      · simp [after, hb, hc, hne, nextLine]
  | case3 p c hc => simp [after, hb, hc, nextLine]
  | case4 p c d t hc hd ih =>
      rw [List.cons_append, List.cons_append, after, if_pos hc, if_pos hd]
      exact ih
  | case5 p c d t hc hd ih =>
      rw [List.cons_append, List.cons_append, after, if_pos hc, if_neg hd]
      exact ih
  | case6 p c d t hc ih =>
      rw [List.cons_append, List.cons_append, after, if_neg hc]
      exact ih

/-- A map that respects lines commutes with reading any text. -/
theorem RespectsLines.after {g : Position → Position} (hg : RespectsLines g) {p : Position}
    (hp : 1 ≤ p.row) (t : Text) : g (p.after t) = (g p).after t := by
  fun_induction Position.after p t with
  | case1 => rfl
  | case2 p b hb => simp [Position.after, hb, hg.nextLine p hp]
  | case3 p b hb => simp [Position.after, hb, hg.right]
  | case4 p b c t hb hc ih =>
      rw [Position.after, if_pos hb, if_pos hc, ← hg.nextLine p hp]
      exact ih (Nat.le_succ_of_le hp)
  | case5 p b c t hb hc ih =>
      rw [Position.after, if_pos hb, if_neg hc, ← hg.nextLine p hp]
      exact ih (Nat.le_succ_of_le hp)
  | case6 p b c t hb ih =>
      rw [Position.after, if_neg hb, ← hg.right]
      exact ih hp

end Position

/-- No newline is cut between a text and the rest: the text is bytes that are no line ends, pairs of
different line ends, and single line ends that the byte behind them does not pair with. -/
inductive Whole : Text → Text → Prop where
  | nil {rest : Text} : Whole [] rest
  | byte {b : UInt8} {t rest : Text} (hb : isLineEnd b = false) (h : Whole t rest) :
      Whole (b :: t) rest
  | newline {b : UInt8} {t rest : Text} (hb : isLineEnd b)
      (hnext : ∀ c ∈ (t ++ rest).head?, isLineEnd c → c = b) (h : Whole t rest) :
      Whole (b :: t) rest
  | pair {b c : UInt8} {t rest : Text} (hb : isLineEnd b) (hc : isLineEnd c) (hne : c ≠ b)
      (h : Whole t rest) : Whole (b :: c :: t) rest

/-! ### The cursor -/

namespace Cursor

/-- What is paired with a byte: the other half of a line end, or the second `#` of a mark. -/
theorem Zone.move_paired {zone : Zone} {b : UInt8} {next : Option UInt8} {m : Move}
    (h : zone.move b next = some m) :
    (isLineEnd b → m.paired = next.any fun c => isLineEnd c && c != b) ∧
      (isLineEnd b = false → m.paired → next = some hashMark) := by
  unfold move at h
  split at h
  next hend =>
    cases h
    exact ⟨fun _ => rfl, fun hb => absurd hend (by simp [hb])⟩
  next hend =>
    refine ⟨fun hb => absurd hb hend, fun _ hpaired => ?_⟩
    split at h
    next =>
      cases zone with
      | plain | blockComment =>
          cases h
          exact eq_of_beq hpaired
      | lineComment =>
          cases h
          cases hpaired
    next =>
      cases zone with
      | plain =>
          dsimp only at h
          split at h <;> cases h
          cases hpaired
      | lineComment | blockComment =>
          cases h
          cases hpaired

/-- **The cursor counts** rows and columns by what it passes over, and stops in the middle of no
newline, whether a comment is left open or not. -/
theorem triviaFrom_after (zone : Zone) (p : Position) (t : Text) :
    let c := (triviaFrom zone p t).2
    ∃ gap, t = gap ++ c.rest ∧ Whole gap c.rest ∧ c.pos = p.after gap := by
  fun_induction triviaFrom zone p t with
  | case1 => exact ⟨[], rfl, .nil, rfl⟩
  | case2 => exact ⟨[], rfl, .nil, rfl⟩
  | case3 zone p b m c rest hpaired hmove ih =>
      obtain ⟨gap, happend, hwhole, hpos⟩ := ih
      obtain ⟨hline, hhash⟩ := Zone.move_paired hmove
      refine ⟨b :: c :: gap, congrArg (b :: c :: ·) happend, ?_⟩
      cases hb : isLineEnd b with
      | true =>
          have hc := hpaired.symm.trans (hline hb)
          simp only [List.head?_cons, Option.any_some, Bool.true_eq, Bool.and_eq_true,
            bne_iff_ne] at hc
          refine ⟨.pair hb hc.1 hc.2 hwhole, ?_⟩
          rw [hpos, Position.after_pair hb hc.1 hc.2, advance, if_pos hb]
      | false =>
          obtain rfl : c = hashMark := Option.some.inj (hhash hb hpaired)
          refine ⟨.byte hb (.byte rfl hwhole), ?_⟩
          rw [hpos, Position.after_cons hb, Position.after_cons rfl, advance, hb]
          rfl
  | case4 zone p b m rest hsingle hmove ih =>
      obtain ⟨gap, happend, hwhole, hpos⟩ := ih
      obtain ⟨hline, -⟩ := Zone.move_paired hmove
      refine ⟨b :: gap, congrArg (b :: ·) happend, ?_⟩
      cases hb : isLineEnd b with
      | true =>
          -- A line end that follows is not the other half of this one.
          have hnext : ∀ c ∈ rest.head?, isLineEnd c → c = b := by
            intro c hc hend
            obtain ⟨rest, rfl⟩ := List.head?_eq_some_iff.mp hc
            by_contra hne
            refine hsingle c _ ?_ rfl
            rw [hline hb]
            simp [hend, hne]
          rw [happend] at hnext
          have hgap : ∀ c ∈ gap.head?, isLineEnd c → c = b :=
            fun c hc => hnext c (List.mem_head?_append_of_mem_head? hc)
          refine ⟨.newline hb hnext hwhole, ?_⟩
          rw [hpos, Position.after_lineEnd hb hgap, advance, if_pos hb]
      | false =>
          refine ⟨.byte hb hwhole, ?_⟩
          rw [hpos, Position.after_cons hb, advance, hb]
          rfl

end Cursor

/-! ### Layouts -/

/-- A text at `p` is trivia and these lexemes, each with a stored text of at most `limit` bytes, and
ends at `e`. -/
inductive Layout (limit : Nat) : Text → Position → List Lexeme → Position → Prop where
  | done {t : Text} {p : Position} (htrivia : Trivia t []) : Layout limit t p [] (p.after t)
  | lexeme {gap run rest : Text} {p e : Position} {w : Word} {xs : List Lexeme}
      (htrivia : Trivia (gap ++ (run ++ rest)) (run ++ rest)) (hlexes : Lexes limit run rest w)
      (hrest : Layout limit rest ((p.after gap).right run.length) xs e) :
      Layout limit (gap ++ (run ++ rest)) p (⟨w.kind, w.text, p.after gap⟩ :: xs) e

theorem Trivia.suffix {t rest : Text} (h : Trivia t rest) : rest <:+ t := by
  induction h with
  | nil => exact List.suffix_refl _
  | cons _ _ ih => exact ih.trans (List.suffix_append _ _)

/-- Every splitting of a text is a layout of it at any place. -/
theorem Splits.layout {limit : Nat} {t : Text} {words : List Word} (h : Splits limit t words)
    (p : Position) : ∃ xs e, Layout limit t p xs e := by
  induction h generalizing p with
  | done htrivia => exact ⟨_, _, .done htrivia⟩
  | @lexeme t run rest w words htrivia hlexes _ ih =>
      obtain ⟨gap, rfl⟩ := htrivia.suffix
      obtain ⟨xs, e, hrest⟩ := ih ((p.after gap).right run.length)
      exact ⟨_, _, .lexeme htrivia hlexes hrest⟩

/-! ### The lexer reads layouts -/

namespace Scanner

variable {limit : Nat} {p : Position}

/-- The cursor passes over trivia up to the lexeme behind it, and counts what it passed. -/
theorem trivia_after {t rest : Text} (h : Trivia t rest) (hrest : AtToken rest) (p : Position) :
    ∃ gap, t = gap ++ rest ∧ Cursor.trivia ⟨t, p⟩ = (.ok (), ⟨rest, p.after gap⟩) := by
  obtain ⟨p', htrivia⟩ := (Cursor.trivia_eq_ok_iff t p rest).mpr ⟨h, hrest⟩
  obtain ⟨gap, happend, -, hpos⟩ := Cursor.triviaFrom_after .plain p t
  rw [Cursor.trivia] at htrivia
  rw [htrivia] at happend hpos
  exact ⟨gap, happend, htrivia.trans (by rw [← hpos])⟩

/-- Behind the last lexeme is the end of the source. -/
theorem next_of_end {t : Text} (h : Trivia t []) (p : Position) :
    next ⟨⟨t, p⟩, [], limit⟩ =
      (.ok ⟨.eof, none, p.after t⟩, ⟨⟨[], p.after t⟩, [], limit⟩) := by
  obtain ⟨gap, rfl, htrivia⟩ := trivia_after h nofun p
  rw [List.append_nil] at htrivia ⊢
  exact next_of_skipped htrivia

/-- A lexeme behind trivia is read at its place. -/
theorem next_of_gap {gap run rest : Text} {w : Word}
    (h : Trivia (gap ++ (run ++ rest)) (run ++ rest)) (hlexes : Lexes limit run rest w)
    (p : Position) :
    next ⟨⟨gap ++ (run ++ rest), p⟩, [], limit⟩ =
      (.ok ⟨w.kind, w.text, p.after gap⟩,
        ⟨⟨rest, (p.after gap).right run.length⟩, [], limit⟩) := by
  obtain ⟨b, tail, rfl, hb⟩ := hlexes.exists_cons
  have hat : AtToken (b :: tail ++ rest) := fun c hc => by cases hc; exact hb
  obtain ⟨gap', happend, htrivia⟩ := trivia_after h hat p
  obtain rfl := List.append_cancel_right happend
  exact (next_of_skipped htrivia).trans (lexeme_of_lexes hlexes rfl _)

end Scanner

namespace Lexeme

/-- The texts of lexemes in order. -/
def texts (xs : List Lexeme) : List Text := xs.flatMap fun x => x.text.toList

/-- The tokens of lexemes whose texts are interned one after the other. -/
def tokens (table : Intern.Table) : List Lexeme → List Token
  | [] => []
  | x :: xs =>
    ⟨x.kind, x.text.map fun text => (table.intern text).1, x.pos⟩ ::
      tokens (table.internAll x.text.toList) xs

theorem texts_cons (x : Lexeme) (xs : List Lexeme) : texts (x :: xs) = x.text.toList ++ texts xs :=
  List.flatMap_cons

theorem texts_append (xs ys : List Lexeme) : texts (xs ++ ys) = texts xs ++ texts ys :=
  List.flatMap_append

theorem tokens_append (table : Intern.Table) (xs ys : List Lexeme) :
    tokens table (xs ++ ys) = tokens table xs ++ tokens (table.internAll (texts xs)) ys := by
  induction xs generalizing table with
  | nil => rfl
  | cons x xs ih =>
      rw [List.cons_append, tokens, tokens, ih, texts_cons, Intern.Table.internAll_append]
      rfl

end Lexeme

namespace Lexer

variable {l : Lexer}

/-- A token is a lexeme whose text has been interned. -/
theorem nextToken_of_lexeme {x : Lexeme} {s : Scanner} (h : l.scanner.next = (.ok x, s)) :
    l.nextToken = (.ok ⟨x.kind, x.text.map fun text => (l.table.intern text).1, x.pos⟩,
      { l with scanner := s, table := l.table.internAll x.text.toList }) := by
  simp only [nextToken, Attempt.bind_apply, lexeme, internLexeme, h]
  cases x.text <;> rfl

/-- **The tokens of a source** are the lexemes of its layout, with `eof` at its end. -/
theorem tokenize_of_layout {limit : Nat} {t : Text} {p e : Position} {xs : List Lexeme}
    (h : Layout limit t p xs e) (hs : l.scanner = ⟨⟨t, p⟩, [], limit⟩) :
    ∃ l', l.tokenize = (.ok (Lexeme.tokens l.table xs ++ [⟨.eof, none, e⟩]), l') ∧
      l'.table = l.table.internAll (Lexeme.texts xs) := by
  induction h generalizing l with
  | @done t p htrivia =>
      have hnext : Scanner.next ⟨⟨t, p⟩, [], limit⟩ = _ := Scanner.next_of_end htrivia p
      rw [← hs] at hnext
      exact ⟨_, tokenize_of_eof (nextToken_of_lexeme hnext) rfl, rfl⟩
  | @lexeme gap run rest p e w xs htrivia hlexes _ ih =>
      have hnext := Scanner.next_of_gap htrivia hlexes p
      rw [← hs] at hnext
      obtain ⟨l', htokens, htable⟩ := ih (l := { l with
        scanner := ⟨⟨rest, (p.after gap).right run.length⟩, [], limit⟩
        table := l.table.internAll w.text.toList }) rfl
      refine ⟨l', tokenize_of_ne_eof (nextToken_of_lexeme hnext) hlexes.kind_ne_eof htokens, ?_⟩
      rw [htable, Lexeme.texts_cons, Intern.Table.internAll_append]

/-- What is read has a layout. -/
theorem layout_of_tokenize {limit : Nat} {t : Text} {p : Position} {ts : List Token} {l' : Lexer}
    (hs : l.scanner = ⟨⟨t, p⟩, [], limit⟩) (h : l.tokenize = (.ok ts, l')) :
    ∃ xs e, Layout limit t p xs e ∧ ts = Lexeme.tokens l.table xs ++ [⟨.eof, none, e⟩] ∧
      l'.table = l.table.internAll (Lexeme.texts xs) := by
  obtain ⟨words, hsplits⟩ := splits_of_tokenize hs h
  obtain ⟨xs, e, hlayout⟩ := hsplits.layout p
  obtain ⟨l'', htokens, htable⟩ := tokenize_of_layout hlayout hs
  cases h.symm.trans htokens
  exact ⟨xs, e, hlayout, rfl, htable⟩

end Lexer

/-! ### Moving and joining -/

/-- A lexeme at another place. -/
def Lexeme.move (g : Position → Position) (x : Lexeme) : Lexeme := { x with pos := g x.pos }

theorem Lexeme.texts_move (g : Position → Position) (xs : List Lexeme) :
    texts (xs.map (move g)) = texts xs :=
  List.flatMap_map _ _ xs

/-- A layout at another place. -/
theorem Layout.move {limit : Nat} {t : Text} {p e : Position} {xs : List Lexeme}
    (h : Layout limit t p xs e) {g : Position → Position} (hg : Position.RespectsLines g)
    (hp : 1 ≤ p.row) : Layout limit t (g p) (xs.map (Lexeme.move g)) (g e) := by
  induction h with
  | done htrivia =>
      rw [hg.after hp]
      exact .done htrivia
  | @lexeme gap run rest p e w xs htrivia hlexes _ ih =>
      have hgap := Position.one_le_row_after hp gap
      have hrest := ih hgap
      rw [hg.right, hg.after hp] at hrest
      rw [List.map_cons, Lexeme.move, hg.after hp]
      exact .lexeme htrivia hlexes hrest

section Join

variable {limit : Nat} {b : UInt8}

theorem Trivia.trans {t mid rest : Text} (h : Trivia t mid) (h' : Trivia mid rest) :
    Trivia t rest := by
  induction h with
  | nil => exact h'
  | cons hpiece _ ih => exact .cons hpiece (ih h')

/-- Trivia before a line end. -/
theorem Trivia.append {t rest : Text} (h : Trivia t rest) (hb : isLineEnd b) (more : Text) :
    Trivia (t ++ b :: more) (rest ++ b :: more) := by
  induction h with
  | nil => exact .nil
  | @cons piece rest rest' h _ ih =>
      rw [List.append_assoc]
      refine .cons ?_ ih
      cases h with
      | blank hblank => exact .blank hblank
      | lineComment hhash hbody hrest =>
          refine .lineComment hhash hbody ?_
          cases rest with
          | nil =>
              rintro _ ⟨⟩
              exact hb
          | cons c rest => exact hrest
      | blockComment hbody => exact .blockComment hbody

/-- A lexeme before a line end. -/
theorem Lexes.append {run rest : Text} {w : Word} (h : Lexes limit run rest w) (hb : isLineEnd b)
    (more : Text) : Lexes limit run (rest ++ b :: more) w := by
  have hb : b = 13 ∨ b = 10 := by simpa [isLineEnd] using hb
  have hstops : ∀ {p : UInt8 → Bool}, p 13 = false → p 10 = false → stopsAt p rest →
      stopsAt p (rest ++ b :: more) := by
    intro p hcr hlf hrest
    cases rest with
    | nil => rcases hb with rfl | rfl <;> simpa
    | cons c rest => exact hrest
  cases h with
  | operator hkind hrest =>
      refine .operator hkind fun hshort => ?_
      cases rest with
      | nil => rcases hb with rfl | rfl <;> simp [equalsSign]
      | cons c rest => exact hrest hshort
  | keyword hkind hlen hrest => exact .keyword hkind hlen (hstops rfl rfl hrest)
  | identifier hrun hkey hlen hrest => exact .identifier hrun hkey hlen (hstops rfl rfl hrest)
  | number hrun hlen hrest => exact .number hrun hlen (hstops rfl rfl hrest)
  | string hquote hbody hlen => exact .string hquote hbody hlen

/-- An operator or delimiter that is not the start of a longer one, before anything. -/
theorem Lexes.sign {kind : TokenKind} (hkind : kind ∈ TokenKind.operators)
    (hshort : kind ∉ TokenKind.shortForms) (rest : Text) :
    Lexes limit (Text.ofString kind.spelling) rest ⟨kind, none⟩ :=
  .operator hkind fun h => absurd h hshort

/-- **Joining.**  A text is followed by a line end and a sign of one byte, which begins a line.
Whatever comes behind it is laid out behind it. -/
theorem Layout.join {t : Text} {p e : Position} {xs : List Lexeme} (h : Layout limit t p xs e)
    {sign : UInt8} {kind : TokenKind} (hsign : ∀ rest, Lexes limit [sign] rest ⟨kind, none⟩) :
    ∃ row, ∀ t' xs' e', Layout limit t' ⟨row, 2⟩ xs' e' →
      Layout limit (t ++ 10 :: sign :: t') p (xs ++ ⟨kind, none, ⟨row, 1⟩⟩ :: xs') e' := by
  induction h with
  | @done t p htrivia =>
      have hplace : p.after (t ++ [10]) = ⟨(p.after (t ++ [10])).row, 1⟩ :=
        congrArg (Position.mk _) (Position.col_after_lineEnd rfl p t)
      refine ⟨(p.after (t ++ [10])).row, fun t' xs' e' hrest => ?_⟩
      have htrivia : Trivia ((t ++ [10]) ++ ([sign] ++ t')) ([sign] ++ t') := by
        have hline : Trivia (10 :: sign :: t') (sign :: t') := .cons (.blank (.inr rfl)) .nil
        simpa using (htrivia.append (b := 10) rfl (sign :: t')).trans hline
      have hlayout := Layout.lexeme htrivia (hsign t') (p := p) (by rw [hplace]; exact hrest)
      rw [hplace] at hlayout
      simpa using hlayout
  | @lexeme gap run rest p e w xs htrivia hlexes _ ih =>
      obtain ⟨row, hjoin⟩ := ih
      refine ⟨row, fun t' xs' e' hrest => ?_⟩
      have htrivia := htrivia.append (b := 10) rfl (sign :: t')
      rw [List.append_assoc, List.append_assoc] at htrivia ⊢
      exact .lexeme htrivia (hlexes.append rfl _) (hjoin t' xs' e' hrest)

end Join

end ScriptLang
