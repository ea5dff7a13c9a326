import ScriptLang.Lexer.Scanner
import ScriptLang.Proofs.Lexer.Trivia

/-!
# Lexemes and the words they spell

A word is a token without its place: its kind and its text.  `Lexes limit run rest w` says that the
bytes `run` before the bytes `rest` are a lexeme of the word `w` whose stored text has at most
`limit` bytes.  What comes after matters: a word or a number does not end where it could go on.

A reader splits a run of bytes off the source and checks it.  So there is one statement for each
about a source that is split already, and both directions below go by it: `word_eq_ok_iff`,
`number_eq_ok_iff`, `string_eq_ok_iff` and `punctuation?_eq_some_iff`.

* **What is read is a lexeme** (`behind_of_lexeme`), and the scanner stops at its end.
* **Every lexeme is read** (`lexeme_of_lexes`), as its word.
-/

namespace ScriptLang

/-- A token without its place. -/
structure Word where
  kind : TokenKind
  text : Option Text
  deriving DecidableEq, Repr

/-- The operators and delimiters. -/
def TokenKind.operators : List TokenKind :=
  [.is, .colon, .semicolon, .eq, .neq, .ge, .gt, .le, .lt, .add, .minus, .mul, .div, .and, .or,
    .not, .comma, .lParen, .rParen, .lBracket, .rBracket, .lBrace, .rBrace, .money]

/-- The operators and delimiters that are longer ones with `=` behind them. -/
def TokenKind.shortForms : List TokenKind := [.colon, .not, .gt, .lt]

/-- The byte `=`. -/
def equalsSign : UInt8 := 61

/-- A letter followed by letters and `_`. -/
def isLetters (t : Text) : Bool := t.head?.any isLetter && t.all isWordByte

/-- A digit followed by letters, digits, `_` and at most one point. -/
def isFigures (t : Text) : Bool :=
  t.head?.any isDigit && t.all (fun b => isNumberByte b || isPoint b) && t.countP isPoint ≤ 1

/-- The bytes of a number that are stored: all but the separators. -/
def unseparated (t : Text) : Text := t.filter fun b => !isUnderscore b

/-- Whether the next byte, if there is one, is not of a class. -/
def stopsAt (p : UInt8 → Bool) (rest : Text) : Bool := !rest.head?.any p

/-- The bytes `run` before `rest` are a lexeme of a word with a stored text of at most `limit`
bytes. -/
inductive Lexes (limit : Nat) : Text → Text → Word → Prop where
  | operator {kind : TokenKind} {rest : Text} (hkind : kind ∈ TokenKind.operators)
      (hrest : kind ∈ TokenKind.shortForms → rest.head? ≠ some equalsSign) :
      Lexes limit (Text.ofString kind.spelling) rest ⟨kind, none⟩
  | keyword {kind : TokenKind} {rest : Text} (hkind : kind ∈ TokenKind.keywords)
      (hlen : (Text.ofString kind.spelling).length ≤ limit) (hrest : stopsAt isWordByte rest) :
      Lexes limit (Text.ofString kind.spelling) rest ⟨kind, none⟩
  | identifier {run rest : Text} (hrun : isLetters run)
      (hkey : ∀ kind ∈ TokenKind.keywords, run ≠ Text.ofString kind.spelling)
      (hlen : run.length ≤ limit) (hrest : stopsAt isWordByte rest) :
      Lexes limit run rest ⟨.identifier, some run⟩
  | number {run rest : Text} (hrun : isFigures run) (hlen : (unseparated run).length ≤ limit)
      (hrest : stopsAt (fun b => isNumberByte b || isPoint b) rest) :
      Lexes limit run rest ⟨.number, some (unseparated run)⟩
  | string {quote : UInt8} {body rest : Text} (hquote : isQuote quote)
      (hbody : body.all (isStringByte quote)) (hlen : (stringMark :: body).length ≤ limit) :
      Lexes limit (quote :: (body ++ [quote])) rest ⟨.str, some (stringMark :: body)⟩

/-- The bytes of a word that pass through the buffer: its text, or the letters of a keyword. -/
def Word.stored (w : Word) : Text :=
  match w.text with
  | some text => text
  | none => if w.kind ∈ TokenKind.keywords then Text.ofString w.kind.spelling else []

/-- A lexeme under one bound is a lexeme under any that its stored bytes do not exceed. -/
theorem Lexes.of_stored_le {m n : Nat} {run rest : Text} {w : Word} (h : Lexes m run rest w)
    (hn : w.stored.length ≤ n) : Lexes n run rest w := by
  cases h with
  | operator hkind hrest => exact .operator hkind hrest
  | keyword hkind _ hrest =>
      rw [Word.stored, if_pos hkind] at hn
      exact .keyword hkind hn hrest
  | identifier hrun hkey _ hrest => exact .identifier hrun hkey hn hrest
  | number hrun _ hrest => exact .number hrun hn hrest
  | string hquote hbody => exact .string hquote hbody hn

/-! ### Runs of bytes -/

section Runs

variable {p : UInt8 → Bool} {run rest t : Text} {b : UInt8}

@[simp] theorem stopsAt_nil : stopsAt p [] := rfl

@[simp] theorem stopsAt_cons : stopsAt p (b :: t) ↔ p b = false := by simp [stopsAt]

theorem stopsAt_or {q : UInt8 → Bool} :
    stopsAt (fun b => p b || q b) rest ↔ stopsAt p rest ∧ stopsAt q rest := by
  cases rest <;> simp

theorem takeWhile_append_stopsAt (hrun : run.all p) (hrest : stopsAt p rest) :
    (run ++ rest).takeWhile p = run := by
  rw [List.takeWhile_append_of_pos (List.all_eq_true.mp hrun)]
  cases rest with
  | nil => simp
  | cons b rest => simp [stopsAt_cons.mp hrest]

/-- Every text begins with a longest run, which may be empty. -/
theorem exists_run (p : UInt8 → Bool) (t : Text) :
    ∃ run rest, t = run ++ rest ∧ run.all p ∧ stopsAt p rest := by
  refine ⟨t.takeWhile p, t.dropWhile p, List.takeWhile_append_dropWhile.symm,
    List.all_takeWhile, ?_⟩
  have hstop := List.head?_dropWhile_not p t
  cases hdrop : t.dropWhile p with
  | nil => rfl
  | cons b rest =>
      rw [hdrop] at hstop
      exact stopsAt_cons.mpr hstop

/-- A run takes a byte of its class. -/
theorem exists_cons_of_append (hb : p b) (hrest : stopsAt p rest) (h : b :: t = run ++ rest) :
    ∃ tail, run = b :: tail ∧ t = tail ++ rest := by
  cases run with
  | nil =>
      rw [List.nil_append] at h
      rw [← h, stopsAt_cons, hb] at hrest
      cases hrest
  | cons c tail =>
      cases h
      exact ⟨tail, rfl, rfl⟩

theorem exists_cons_of_head?_any (h : run.head?.any p) : ∃ b tail, run = b :: tail ∧ p b := by
  cases run with
  | nil => cases h
  | cons b tail => exact ⟨b, tail, rfl, h⟩

/-- The first byte of a source is that of the run it begins with. -/
theorem first_of_append (hrun : run.head?.any p) (h : b :: t = run ++ rest) : p b := by
  obtain ⟨c, tail, rfl, hc⟩ := exists_cons_of_head?_any hrun
  cases h
  exact hc

theorem numberRun_prefix (seen : Bool) (t : Text) : numberRun seen t <+: t := by
  fun_induction numberRun seen t with
  | case1 | case2 | case5 => exact List.nil_prefix
  | case3 _ _ _ _ _ ih | case4 _ _ _ _ _ ih => exact List.cons_prefix_cons.mpr ⟨rfl, ih⟩

/-- The bytes of a number before a text that begins with no point. -/
theorem numberRun_append_eq_iff (hrest : stopsAt isPoint rest) (seen : Bool) :
    numberRun seen (run ++ rest) = run ↔ run.all (fun b => isNumberByte b || isPoint b) ∧
      run.countP isPoint ≤ (if seen then 0 else 1) ∧ stopsAt isNumberByte rest := by
  induction run generalizing seen with
  | nil =>
      cases rest with
      | nil => simp [numberRun]
      | cons b rest => simp [numberRun, stopsAt_cons.mp hrest]
  | cons b run ih =>
      rw [List.cons_append, numberRun]
      -- A point uses up the one that is allowed.
      by_cases hpoint : isPoint b
      · cases seen with
        | true => simp [hpoint]
        | false => simp [hpoint, ih]
      · by_cases hnumber : isNumberByte b
        · simp [hpoint, hnumber, ih]
        · simp [hpoint, hnumber]

end Runs

/-! ### The buffer -/

/-- What finds room behind a buffer. -/
theorem store_of_fits {limit : Nat} {keep : UInt8 → Bool} {buffer run : Text}
    (h : buffer.length + (run.filter keep).length ≤ limit) :
    store limit keep buffer run = (buffer ++ run.filter keep, []) := by
  induction run generalizing buffer with
  | nil => simp [store]
  | cons b run ih =>
      rw [store]
      by_cases hb : keep b
      · rw [List.filter_cons_of_pos hb, List.length_cons] at h
        rw [if_pos hb, if_pos (by omega), ih (by simp; omega), List.filter_cons_of_pos hb]
        simp
      · rw [List.filter_cons_of_neg hb] at h
        rw [if_neg hb, ih h, List.filter_cons_of_neg hb]

theorem store_ne_nil {limit : Nat} {keep : UInt8 → Bool} {buffer run : Text}
    (hbuffer : buffer.length ≤ limit) (h : limit < buffer.length + (run.filter keep).length) :
    (store limit keep buffer run).2 ≠ [] := by
  induction run generalizing buffer with
  | nil => simp at h; omega
  | cons b run ih =>
      rw [store]
      by_cases hb : keep b
      · rw [List.filter_cons_of_pos hb, List.length_cons] at h
        rw [if_pos hb]
        by_cases hroom : buffer.length < limit
        · rw [if_pos hroom]
          exact ih (by simp; omega) (by simp; omega)
        · rw [if_neg hroom]
          exact List.cons_ne_nil _ _
      · rw [List.filter_cons_of_neg hb] at h
        rw [if_neg hb]
        exact ih hbuffer h

theorem filter_true (t : Text) : t.filter (fun _ => true) = t :=
  List.filter_eq_self.mpr fun _ _ => rfl

namespace Scanner

variable {limit : Nat} {run rest buffer text : Text} {p : Position} {s' : Scanner}

theorem remaining_bind {α : Type} (f : Text → Scan α) (s : Scanner) :
    (remaining >>= f) s = f s.cursor.rest s := rfl

theorem skip_bind {α : Type} (n : Nat) (f : Unit → Scan α) (s : Scanner) :
    (skip n >>= f) s = f () { s with cursor := s.cursor.skip n } := rfl

/-- A byte is stored just if it finds room. -/
theorem write_bind_eq_ok_iff {α : Type} {f : Unit → Scan α} {a : α} {b : UInt8} {c : Cursor} :
    (write b >>= f) ⟨c, buffer, limit⟩ = (.ok a, s') ↔
      (buffer ++ [b]).length ≤ limit ∧ f () ⟨c, buffer ++ [b], limit⟩ = (.ok a, s') := by
  have hlen : (buffer ++ [b]).length ≤ limit ↔ buffer.length < limit := by
    rw [List.length_append, List.length_singleton, Nat.succ_le_iff]
  rw [Attempt.bind_apply, hlen]
  by_cases h : buffer.length < limit <;> simp [write, h]

/-- Bytes at the cursor are copied just if those that are kept find room. -/
theorem copy_bind_eq_ok_iff {α : Type} {f : Unit → Scan α} {a : α} {keep : UInt8 → Bool}
    (hbuffer : buffer.length ≤ limit) :
    (copy keep run >>= f) ⟨⟨run ++ rest, p⟩, buffer, limit⟩ = (.ok a, s') ↔
      buffer.length + (run.filter keep).length ≤ limit ∧
        f () ⟨⟨rest, p.right run.length⟩, buffer ++ run.filter keep, limit⟩ = (.ok a, s') := by
  rw [Attempt.bind_apply]
  by_cases h : buffer.length + (run.filter keep).length ≤ limit
  · simp [copy, store_of_fits h, Cursor.skip, h]
  · have hleft := store_ne_nil hbuffer (Nat.lt_of_not_le h)
    simp [copy, hleft, h]

/-! ### The readers -/

/-- **A word** is read just if it fits the buffer. -/
theorem word_eq_ok_iff (hrun : run.all isWordByte) (hrest : stopsAt isWordByte rest) :
    word ⟨⟨run ++ rest, p⟩, [], limit⟩ = (.ok text, s') ↔
      run.length ≤ limit ∧ text = run ∧ s' = ⟨⟨rest, p.right run.length⟩, [], limit⟩ := by
  rw [word, remaining_bind, takeWhile_append_stopsAt hrun hrest,
    copy_bind_eq_ok_iff (Nat.zero_le limit), filter_true]
  simp [take, eq_comm]

/-- **A number** is read just if it fits without its separators and no second point follows. -/
theorem number_eq_ok_iff (hrun : numberRun false (run ++ rest) = run) :
    number ⟨⟨run ++ rest, p⟩, [], limit⟩ = (.ok text, s') ↔
      (unseparated run).length ≤ limit ∧ stopsAt isPoint rest ∧ text = unseparated run ∧
        s' = ⟨⟨rest, p.right run.length⟩, [], limit⟩ := by
  rw [number, remaining_bind, hrun, copy_bind_eq_ok_iff (Nat.zero_le limit), remaining_bind]
  cases hpoint : rest.head?.any isPoint
  · simp [hpoint, stopsAt, take, unseparated, eq_comm]
  · simp [hpoint, stopsAt, Attempt.bind_apply, position]

/-- **A string** is read just if it fits with its mark and its own quote ends it. -/
theorem string_eq_ok_iff {quote : UInt8} {body : Text} (hbody : body.all (isStringByte quote))
    (hrest : stopsAt (isStringByte quote) rest) :
    string quote ⟨⟨quote :: (body ++ rest), p⟩, [], limit⟩ = (.ok text, s') ↔
      (stringMark :: body).length ≤ limit ∧ ∃ rest', rest = quote :: rest' ∧
        text = stringMark :: body ∧
        s' = ⟨⟨rest', p.right (quote :: (body ++ [quote])).length⟩, [], limit⟩ := by
  rw [string, skip_bind, write_bind_eq_ok_iff, remaining_bind]
  simp only [Cursor.skip, List.drop_succ_cons, List.drop_zero,
    takeWhile_append_stopsAt hbody hrest]
  refine (and_congr_right fun hroom => copy_bind_eq_ok_iff hroom).trans ?_
  simp only [filter_true, remaining_bind]
  cases rest with
  | nil => simp [Attempt.bind_apply, take]
  | cons b rest =>
      by_cases hb : b = quote
      · subst hb
        have hright : ((p.right 1).right body.length).right 1 =
            p.right (b :: (body ++ [b])).length := by
          simp [Position.right]
          omega
        simp only [beq_self_eq_true, if_true, skip_bind, Cursor.skip, take, hright, List.drop_one,
          List.tail_cons, Prod.mk.injEq, Except.ok.injEq, List.length_append, List.length_cons]
        constructor
        · rintro ⟨-, hlen, rfl, rfl⟩
          exact ⟨by simpa [Nat.add_comm] using hlen, rest, rfl, rfl, rfl⟩
        · rintro ⟨hlen, _, ⟨⟩, rfl, rfl⟩
          exact ⟨by simp; omega, by simpa [Nat.add_comm] using hlen, rfl, rfl⟩
      · simp [hb, Attempt.bind_apply, position]

end Scanner

/-! ### Operators and delimiters -/

namespace Text

theorem toNat_byteChar (b : UInt8) : (byteChar b).toNat = b.toNat := by
  have hvalid : b.toNat.isValidChar := .inl (Nat.lt_trans b.toNat_lt (by decide))
  have hchar : byteChar b = Char.ofNatAux b.toNat hvalid := dif_pos hvalid
  rw [hchar]
  rfl

theorem eq_of_byteChar_eq {b : UInt8} {c : Char} (h : byteChar b = c) :
    b = UInt8.ofNat c.toNat := by
  rw [← h, toNat_byteChar, UInt8.ofNat_toNat]

theorem exists_cons_of_head?_map {t : Text} {c : Char} (h : t.head?.map byteChar = some c) :
    ∃ rest, t = UInt8.ofNat c.toNat :: rest := by
  obtain ⟨b, hb, hc⟩ := Option.map_eq_some_iff.mp h
  obtain rfl := eq_of_byteChar_eq hc
  exact List.head?_eq_some_iff.mp hb

end Text

theorem equalsSign_next {t : Text} :
    t.head?.map Text.byteChar = some '=' ↔ t.head? = some equalsSign := by
  constructor
  · intro h
    obtain ⟨rest, rfl⟩ := Text.exists_cons_of_head?_map h
    rfl
  · intro h
    rw [h]
    rfl

/-- A text begins with an operator or delimiter just if it begins with its spelling, and that is not
the start of a longer one. -/
theorem punctuation?_eq_some_iff {b : UInt8} {t : Text} {kind : TokenKind} {n : Nat} :
    punctuation? (Text.byteChar b) (t.head?.map Text.byteChar) = some (kind, n) ↔
      kind ∈ TokenKind.operators ∧ ∃ rest, b :: t = Text.ofString kind.spelling ++ rest ∧
        n = (Text.ofString kind.spelling).length ∧
        (kind ∈ TokenKind.shortForms → rest.head? ≠ some equalsSign) := by
  constructor
  · intro h
    unfold punctuation? at h
    -- The first sign names the byte, and a second one, where there is a choice, the next.
    split at h
    all_goals try obtain rfl := Text.eq_of_byteChar_eq ‹_›
    all_goals try split at h
    all_goals cases h
    all_goals try obtain ⟨rest, rfl⟩ := Text.exists_cons_of_head?_map ‹_›
    all_goals first
      | exact ⟨by decide, _, rfl, rfl, fun hshort => absurd hshort (by decide)⟩
      | exact ⟨by decide, _, rfl, rfl, fun _ => mt equalsSign_next.mpr ‹_›⟩
  · rintro ⟨hkind, rest, happend, rfl, hrest⟩
    cases kind <;> try exact absurd hkind (by decide)
    all_goals
      cases happend
      first
        | rfl
        | exact if_neg (mt equalsSign_next.mp (hrest (by decide)))

/-! ### Keywords -/

/-- A keyword is known by its letters. -/
theorem TokenKind.keyword?_eq_some_iff {t : Text} {kind : TokenKind} :
    keyword? t = some kind ↔ kind ∈ keywords ∧ t = Text.ofString kind.spelling := by
  constructor
  · intro h
    have hspelling := List.find?_some h
    exact ⟨List.mem_of_find?_eq_some h, (eq_of_beq hspelling).symm⟩
  · rintro ⟨hkind, rfl⟩
    revert kind
    decide

/-- A name is a word that is spelled like no keyword. -/
theorem TokenKind.keyword?_eq_none_iff {t : Text} :
    keyword? t = none ↔ ∀ kind ∈ keywords, t ≠ Text.ofString kind.spelling := by
  rw [keyword?, List.find?_eq_none]
  simp only [beq_iff_eq, ne_eq]
  exact forall₂_congr fun kind _ => not_congr eq_comm

theorem isLetters_keyword :
    ∀ kind ∈ TokenKind.keywords, isLetters (Text.ofString kind.spelling) := by
  decide

/-! ### First bytes -/

theorem beginsToken_of_isLetter {b : UInt8} (h : isLetter b) :
    beginsToken b ∧ isQuote b = false ∧ isDigit b = false := by
  simp only [isLetter, Bool.or_eq_true, Bool.and_eq_true, decide_eq_true_eq] at h
  simp [beginsToken, isLineEnd, isBlank, isQuote, isDigit, hashMark]
  grind

theorem beginsToken_of_isDigit {b : UInt8} (h : isDigit b) :
    beginsToken b ∧ isQuote b = false := by
  simp only [isDigit, Bool.and_eq_true, decide_eq_true_eq] at h
  simp [beginsToken, isLineEnd, isBlank, isQuote, hashMark]
  grind

theorem beginsToken_of_isQuote {b : UInt8} (h : isQuote b) : beginsToken b := by
  simp only [isQuote, Bool.or_eq_true, beq_iff_eq] at h
  rcases h with rfl | rfl <;> decide

/-- The first byte of an operator or delimiter is the first byte of nothing else. -/
theorem beginsToken_of_operator : ∀ kind ∈ TokenKind.operators,
    (Text.ofString kind.spelling).head?.any fun b =>
      beginsToken b && !isQuote b && !isDigit b && !isLetter b := by
  decide

namespace Lexes

variable {limit : Nat} {run rest : Text} {w : Word}

theorem kind_ne_eof (h : Lexes limit run rest w) : w.kind ≠ .eof := by
  cases h with
  | operator hkind =>
      rintro rfl
      exact absurd hkind (by decide)
  | keyword hkind =>
      rintro rfl
      exact absurd hkind (by decide)
  | identifier | number | string => nofun

/-- A lexeme begins with a byte that begins a token. -/
theorem exists_cons (h : Lexes limit run rest w) : ∃ b tail, run = b :: tail ∧ beginsToken b := by
  have hletters {t : Text} (ht : isLetters t) : ∃ b tail, t = b :: tail ∧ beginsToken b := by
    rw [isLetters, Bool.and_eq_true] at ht
    obtain ⟨b, tail, rfl, hb⟩ := exists_cons_of_head?_any ht.1
    exact ⟨b, tail, rfl, (beginsToken_of_isLetter hb).1⟩
  cases h with
  | @operator kind _ hkind =>
      obtain ⟨b, tail, hrun, hb⟩ := exists_cons_of_head?_any (beginsToken_of_operator kind hkind)
      simp only [Bool.and_eq_true] at hb
      exact ⟨b, tail, hrun, hb.1.1.1⟩
  | @keyword kind _ hkind => exact hletters (isLetters_keyword kind hkind)
  | identifier hrun => exact hletters hrun
  | number hrun =>
      simp only [isFigures, Bool.and_eq_true] at hrun
      obtain ⟨b, tail, rfl, hb⟩ := exists_cons_of_head?_any hrun.1.1
      exact ⟨b, tail, rfl, (beginsToken_of_isDigit hb).1⟩
  | string hquote => exact ⟨_, _, rfl, beginsToken_of_isQuote hquote⟩

end Lexes

/-! ### Reading one lexeme -/

namespace Scanner

variable {limit : Nat} {run rest t : Text} {b : UInt8} {p : Position} {s' : Scanner}

/-- The scanner `s'` is behind a lexeme of `w` that the text at `p` begins with. -/
def Behind (limit : Nat) (t : Text) (p : Position) (w : Word) (s' : Scanner) : Prop :=
  ∃ run rest, t = run ++ rest ∧ Lexes limit run rest w ∧
    s' = ⟨⟨rest, p.right run.length⟩, [], limit⟩

theorem behind_of_string {text : Text} (hquote : isQuote b)
    (h : string b ⟨⟨b :: t, p⟩, [], limit⟩ = (.ok text, s')) :
    Behind limit (b :: t) p ⟨.str, some text⟩ s' := by
  obtain ⟨body, rest, rfl, hbody, hrest⟩ := exists_run (isStringByte b) t
  obtain ⟨hlen, rest, rfl, rfl, rfl⟩ := (string_eq_ok_iff hbody hrest).mp h
  exact ⟨_, rest, by simp, .string hquote hbody hlen, rfl⟩

theorem behind_of_number {text : Text} (hdigit : isDigit b)
    (h : number ⟨⟨b :: t, p⟩, [], limit⟩ = (.ok text, s')) :
    Behind limit (b :: t) p ⟨.number, some text⟩ s' := by
  obtain ⟨rest, hsplit⟩ := numberRun_prefix false (b :: t)
  generalize hrun : numberRun false (b :: t) = run at hsplit
  rw [← hsplit] at hrun h
  obtain ⟨hlen, hpoint, rfl, rfl⟩ := (number_eq_ok_iff hrun).mp h
  obtain ⟨hall, hcount, hstop⟩ := (numberRun_append_eq_iff hpoint false).mp hrun
  have hnumber : isNumberByte b := by simp [isNumberByte, hdigit]
  obtain ⟨tail, rfl, -⟩ := exists_cons_of_append hnumber hstop hsplit.symm
  have hfigures : isFigures (b :: tail) := by
    simp only [isFigures, hall, Bool.and_eq_true, decide_eq_true_eq]
    exact ⟨⟨hdigit, trivial⟩, hcount⟩
  exact ⟨_, rest, hsplit.symm, .number hfigures hlen (stopsAt_or.mpr ⟨hstop, hpoint⟩), rfl⟩

/-- A word that is read is a keyword or a name. -/
theorem behind_of_word {text : Text} (hletter : isLetter b)
    (h : word ⟨⟨b :: t, p⟩, [], limit⟩ = (.ok text, s')) :
    Behind limit (b :: t) p (match TokenKind.keyword? text with
      | some kind => ⟨kind, none⟩
      | none => ⟨.identifier, some text⟩) s' := by
  obtain ⟨run, rest, hsplit, hrun, hrest⟩ := exists_run isWordByte (b :: t)
  rw [hsplit] at h
  obtain ⟨hlen, rfl, rfl⟩ := (word_eq_ok_iff hrun hrest).mp h
  refine ⟨_, rest, hsplit, ?_, rfl⟩
  cases hkey : TokenKind.keyword? text with
  | some kind =>
      obtain ⟨hkind, rfl⟩ := TokenKind.keyword?_eq_some_iff.mp hkey
      exact .keyword hkind hlen hrest
  | none =>
      have hword : isWordByte b := by simp [isWordByte, hletter]
      obtain ⟨tail, rfl, -⟩ := exists_cons_of_append hword hrest hsplit
      have hletters : isLetters (b :: tail) := by
        rw [isLetters, hrun, Bool.and_true]
        exact hletter
      exact .identifier hletters (TokenKind.keyword?_eq_none_iff.mp hkey) hlen hrest

/-- **What is read is a lexeme**, and the scanner stops at its end. -/
theorem behind_of_lexeme {x : Lexeme} (h : lexeme b t p ⟨⟨b :: t, p⟩, [], limit⟩ = (.ok x, s')) :
    Behind limit (b :: t) p ⟨x.kind, x.text⟩ s' := by
  unfold lexeme at h
  split at h
  next hquote =>
    obtain ⟨text, s, hstring, hpure⟩ := Attempt.bind_eq_ok_iff.mp h
    cases hpure
    exact behind_of_string hquote hstring
  split at h
  next hdigit =>
    obtain ⟨text, s, hnumber, hpure⟩ := Attempt.bind_eq_ok_iff.mp h
    cases hpure
    exact behind_of_number hdigit hnumber
  split at h
  next hletter =>
    obtain ⟨text, s, hword, hpure⟩ := Attempt.bind_eq_ok_iff.mp h
    have hbehind := behind_of_word hletter hword
    cases hkey : TokenKind.keyword? text <;>
    · rw [hkey] at hpure hbehind
      cases hpure
      exact hbehind
  next =>
    cases hpunct : punctuation? (Text.byteChar b) (t.head?.map Text.byteChar) with
    | none =>
        rw [hpunct] at h
        cases h
    | some operator =>
        rw [hpunct] at h
        cases h
        obtain ⟨hkind, rest, hsplit, hlen, hrest⟩ := punctuation?_eq_some_iff.mp hpunct
        refine ⟨_, rest, hsplit, .operator hkind hrest, ?_⟩
        simp [Cursor.skip, hsplit, hlen]

/-- A word is read up to its end, and then looked up among the keywords. -/
theorem lexeme_letters (hletters : isLetters run) (hrest : stopsAt isWordByte rest)
    (hlen : run.length ≤ limit) (hsplit : b :: t = run ++ rest) (p : Position) :
    lexeme b t p ⟨⟨b :: t, p⟩, [], limit⟩ =
      (.ok (match TokenKind.keyword? run with
        | some kind => ⟨kind, none, p⟩
        | none => ⟨.identifier, some run, p⟩), ⟨⟨rest, p.right run.length⟩, [], limit⟩) := by
  simp only [isLetters, Bool.and_eq_true] at hletters
  have hletter := first_of_append hletters.1 hsplit
  obtain ⟨-, hquote, hdigit⟩ := beginsToken_of_isLetter hletter
  have hword : word ⟨⟨run ++ rest, p⟩, [], limit⟩ = _ :=
    (word_eq_ok_iff hletters.2 hrest).mpr ⟨hlen, rfl, rfl⟩
  rw [← hsplit] at hword
  simp only [lexeme, hquote, hdigit, hletter, Bool.false_eq_true, if_false, if_true,
    Attempt.bind_apply, hword]
  cases TokenKind.keyword? run <;> rfl

/-- **Every lexeme is read**, as its word. -/
theorem lexeme_of_lexes {w : Word} (h : Lexes limit run rest w) (hsplit : b :: t = run ++ rest)
    (p : Position) : lexeme b t p ⟨⟨b :: t, p⟩, [], limit⟩ =
      (.ok ⟨w.kind, w.text, p⟩, ⟨⟨rest, p.right run.length⟩, [], limit⟩) := by
  cases h with
  | @operator kind _ hkind hrest =>
      have hfirst := first_of_append (beginsToken_of_operator kind hkind) hsplit
      simp only [Bool.and_eq_true, Bool.not_eq_true'] at hfirst
      have hpunct : punctuation? (Text.byteChar b) (t.head?.map Text.byteChar) = _ :=
        punctuation?_eq_some_iff.mpr ⟨hkind, rest, hsplit, rfl, hrest⟩
      simp only [lexeme, hfirst, hpunct, Bool.false_eq_true, if_false, skip_bind, Cursor.skip]
      simp [hsplit]
  | @keyword kind _ hkind hlen hrest =>
      rw [lexeme_letters (isLetters_keyword kind hkind) hrest hlen hsplit,
        TokenKind.keyword?_eq_some_iff.mpr ⟨hkind, rfl⟩]
  | identifier hrun hkey hlen hrest =>
      rw [lexeme_letters hrun hrest hlen hsplit, TokenKind.keyword?_eq_none_iff.mpr hkey]
  | number hrun hlen hrest =>
      simp only [isFigures, Bool.and_eq_true, decide_eq_true_eq] at hrun
      obtain ⟨⟨hdigit, hall⟩, hcount⟩ := hrun
      replace hdigit := first_of_append hdigit hsplit
      obtain ⟨hstop, hpoint⟩ := stopsAt_or.mp hrest
      have hrun := (numberRun_append_eq_iff hpoint false).mpr ⟨hall, hcount, hstop⟩
      have hnumber : number ⟨⟨run ++ rest, p⟩, [], limit⟩ = _ :=
        (number_eq_ok_iff hrun).mpr ⟨hlen, hpoint, rfl, rfl⟩
      rw [← hsplit] at hnumber
      simp only [lexeme, beginsToken_of_isDigit hdigit, hdigit, Bool.false_eq_true, if_false,
        if_true, Attempt.bind_apply, hnumber]
      rfl
  | @string quote body _ hquote hbody hlen =>
      obtain ⟨rfl, rfl⟩ : b = quote ∧ t = body ++ quote :: rest := by simpa using hsplit
      have hrest : stopsAt (isStringByte b) (b :: rest) := by simp [isStringByte]
      have hstring : string b ⟨⟨b :: (body ++ b :: rest), p⟩, [], limit⟩ = _ :=
        (string_eq_ok_iff hbody hrest).mpr ⟨hlen, rest, rfl, rfl, rfl⟩
      simp only [lexeme, hquote, if_true, Attempt.bind_apply, hstring]
      rfl

end Scanner

end ScriptLang
