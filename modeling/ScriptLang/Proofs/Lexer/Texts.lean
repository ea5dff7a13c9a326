import ScriptLang.Proofs.Lexer.Reports

/-!
# The texts of a source

What is stored of a lexeme can be shown on a line.  It is not empty and begins with a letter, a
digit or the mark of strings, so with no blank, and it has no line end, since a string has none.  It
is also the bytes of a string if the source is: words and numbers are ASCII, and the body of a
string is what stands between two quotes, which cut no character (`Text.exists_append_of_ascii`).

* `Lexes.shows`: the text of a lexeme.
* `Layout.shows_texts`: the texts of a source.
* **A table shows its texts** (`Lexer.shows_of_tokenize`): every handle of a token, in the table
  that reading a source leaves, stands for such a text.
-/

namespace ScriptLang

namespace Text

/-- The bytes of a string that does not begin with a blank and fits on a line. -/
def Shows (t : Text) (s : String) : Prop :=
  t = ofString s ∧ (∃ c ∈ s.toList.head?, c ≠ ' ') ∧ '\n' ∉ s.toList

theorem mem_ofString {s : String} {c : Char} (h : c ∈ s.toList) {b : UInt8}
    (hb : b ∈ String.utf8EncodeChar c) : b ∈ ofString s :=
  List.mem_flatMap.mpr ⟨c, h, hb⟩

/-- A blank and a line feed can be told from the bytes. -/
theorem shows_ofString {s : String} (hfirst : ∃ b ∈ (ofString s).head?, b ≠ 32)
    (hline : 10 ∉ ofString s) : (ofString s).Shows s := by
  refine ⟨rfl, ?_, fun hmem => hline (mem_ofString hmem (List.mem_singleton_self 10))⟩
  obtain ⟨b, hb, hne⟩ := hfirst
  rw [ofString] at hb
  cases hs : s.toList with
  | nil =>
      rw [hs] at hb
      cases hb
  | cons c cs =>
      refine ⟨c, rfl, ?_⟩
      rintro rfl
      rw [hs] at hb
      exact hne (Option.some.inj hb).symm

theorem utf8EncodeChar_byteChar {b : UInt8} (h : b < 128) :
    String.utf8EncodeChar (byteChar b) = [b] := by
  have hval : (byteChar b).val.toNat = b.toNat := toNat_byteChar b
  have hsmall : b.toNat ≤ 0x7f := Nat.le_of_lt_succ (UInt8.lt_iff_toNat_lt.mp h)
  unfold String.utf8EncodeChar
  dsimp only
  rw [hval, if_pos hsmall, UInt8.ofNat_toNat]

/-- ASCII bytes are those of a string. -/
theorem exists_ofString_of_ascii {t : Text} (h : ∀ b ∈ t, b < 128) : ∃ s, t = ofString s := by
  refine ⟨String.ofList (t.map byteChar), ?_⟩
  have hsingle : ∀ b ∈ t, String.utf8EncodeChar (byteChar b) = [b] :=
    fun b hb => utf8EncodeChar_byteChar (h b hb)
  rw [ofString, String.toList_ofList, List.flatMap_map, List.flatMap_congr hsingle,
    List.flatMap_singleton']

end Text

/-! ### Lexemes -/

section Lexemes

variable {limit : Nat} {gap run rest text : Text} {w : Word} {cs : List Char}

/-- The text of a lexeme begins with no blank and has no line feed. -/
theorem Lexes.text_bytes (h : Lexes limit run rest w) (htext : w.text = some text) :
    (∃ b ∈ text.head?, b ≠ 32) ∧ 10 ∉ text := by
  have hfeed {b : UInt8} (hb : isLineEnd b = false) : b ≠ 10 := by
    rintro rfl
    cases hb
  cases h with
  | operator | keyword => cases htext
  | identifier hrun =>
      cases htext
      rw [isLetters, Bool.and_eq_true] at hrun
      obtain ⟨b, tail, rfl, hb⟩ := exists_cons_of_head?_any hrun.1
      refine ⟨⟨b, rfl, ?_⟩, fun hmem => ?_⟩
      · rintro rfl
        cases hb
      · exact hfeed (lt_of_isWordByte (List.all_eq_true.mp hrun.2 _ hmem)).2 rfl
  | number hrun =>
      cases htext
      simp only [isFigures, Bool.and_eq_true] at hrun
      obtain ⟨⟨hfirst, hall⟩, -⟩ := hrun
      obtain ⟨b, tail, rfl, hb⟩ := exists_cons_of_head?_any hfirst
      refine ⟨⟨b, ?_, ?_⟩, fun hmem => ?_⟩
      · -- The first digit is no separator.
        have hkept : isUnderscore b = false := by
          rw [isUnderscore, beq_eq_false_iff_ne]
          rintro rfl
          cases hb
        simp [unseparated, hkept]
      · rintro rfl
        cases hb
      · have hmem := List.mem_of_mem_filter hmem
        exact hfeed (lt_of_isNumberByte (List.all_eq_true.mp hall _ hmem)).2 rfl
  | string _ hbody =>
      cases htext
      refine ⟨⟨stringMark, rfl, by decide⟩, fun hmem => ?_⟩
      rcases List.mem_cons.mp hmem with hmark | hmem
      · cases hmark
      · have hbyte := List.all_eq_true.mp hbody _ hmem
        simp [isStringByte, isLineEnd] at hbyte

/-- The text of a lexeme in the bytes of characters is the bytes of characters. -/
theorem Lexes.exists_ofString (h : Lexes limit run rest w) (htext : w.text = some text)
    (hcs : cs.flatMap String.utf8EncodeChar = gap ++ (run ++ rest)) :
    ∃ s, text = Text.ofString s := by
  cases h with
  | operator | keyword => cases htext
  | identifier hrun =>
      cases htext
      rw [isLetters, Bool.and_eq_true] at hrun
      exact Text.exists_ofString_of_ascii fun b hb =>
        (lt_of_isWordByte (List.all_eq_true.mp hrun.2 b hb)).1
  | number hrun =>
      cases htext
      simp only [isFigures, Bool.and_eq_true] at hrun
      exact Text.exists_ofString_of_ascii fun b hb =>
        (lt_of_isNumberByte (List.all_eq_true.mp hrun.1.2 b (List.mem_of_mem_filter hb))).1
  | @string quote body _ hquote =>
      cases htext
      have hascii := (lt_of_isQuote hquote).1
      have hopen : cs.flatMap String.utf8EncodeChar =
          (gap ++ [quote]) ++ (body ++ (quote :: rest)) := by
        rw [hcs]
        simp
      -- The body is cut off behind one quote and before the other.
      obtain ⟨-, cs', -, -, hbody⟩ :=
        Text.exists_append_of_ascii hopen (.inl (Text.endsAscii_concat gap hascii))
      obtain ⟨cs'', -, -, hchars, -⟩ :=
        Text.exists_append_of_ascii hbody (.inr ⟨quote, rfl, hascii⟩)
      refine ⟨String.ofList ('$' :: cs''), ?_⟩
      rw [Text.ofString, String.toList_ofList, List.flatMap_cons, hchars]
      rfl

/-- **The text of a lexeme** can be shown. -/
theorem Lexes.shows (h : Lexes limit run rest w) (htext : w.text = some text)
    (hcs : cs.flatMap String.utf8EncodeChar = gap ++ (run ++ rest)) : ∃ s, text.Shows s := by
  obtain ⟨s, rfl⟩ := h.exists_ofString htext hcs
  obtain ⟨hfirst, hline⟩ := h.text_bytes htext
  exact ⟨s, Text.shows_ofString hfirst hline⟩

/-- **The texts of a source** of characters can be shown, each behind the one before. -/
theorem Layout.shows_texts {t : Text} {p e : Position} {xs : List Lexeme}
    (h : Layout limit t p xs e) (hcs : cs.flatMap String.utf8EncodeChar = t) :
    ∀ text ∈ Lexeme.texts xs, ∃ s, text.Shows s := by
  induction h generalizing cs with
  | done => exact List.forall_mem_nil _
  | @lexeme gap run rest p e w xs _ hlexes _ ih =>
      intro text hmem
      rw [Lexeme.texts_cons] at hmem
      rcases List.mem_append.mp hmem with htext | htext
      · exact hlexes.shows (Option.mem_toList.mp htext) hcs
      · obtain ⟨b, tail, hrun, -⟩ := hlexes.exists_cons
        have hne : run ≠ [] := by
          rw [hrun]
          exact List.cons_ne_nil b tail
        rw [← List.append_assoc] at hcs
        obtain ⟨-, cs', -, -, hrest⟩ :=
          Text.exists_append_of_ascii hcs (.inl (hlexes.endsAscii.append_of_ne_nil hne gap))
        exact ih hrest text htext

end Lexemes

/-! ### Tables -/

open Intern (Table)

/-- A table holds only texts that were interned. -/
theorem Intern.Table.Records.mem_of_get? {table : Table} {history : List Text} {s : Symbol}
    {text : Text} (h : table.Records history) (hs : table.get? s = some text) : text ∈ history := by
  obtain ⟨e, he, rfl⟩ := Option.map_eq_some_iff.mp hs
  exact List.mem_of_find?_eq_some (h.first e (List.mem_of_getElem? he))

/-- The handle of a token has a text once all lexemes are interned. -/
theorem Lexeme.get?_of_mem_tokens {table : Table} (htable : table.Hashed) (xs : List Lexeme)
    {t : Token} (ht : t ∈ tokens table xs) {s : Symbol} (hs : t.value = some s) :
    ∃ text, (table.internAll (texts xs)).get? s = some text := by
  induction xs generalizing table with
  | nil => cases ht
  | cons x xs ih =>
      rw [texts_cons, Table.internAll_append]
      rcases List.mem_cons.mp ht with rfl | ht
      · obtain ⟨text, htext, rfl⟩ := Option.map_eq_some_iff.mp hs
        obtain ⟨stored, hget, -⟩ := Table.exists_get?_intern htable text
        rw [htext]
        exact ⟨stored, (Table.growsTo_internAll _ (texts xs)).get? hget⟩
      · exact ih (Table.internAll_spec htable x.text.toList).2 ht

namespace Lexer

variable {source : String} {options : LexerOptions} {ts : List Token} {l : Lexer}

/-- **A table shows its texts**: the handle of a token stands for a text that can be shown, once its
source has been read. -/
theorem shows_of_tokenize (h : (start (Text.ofString source) options).tokenize = (.ok ts, l))
    {t : Token} (ht : t ∈ ts) {s : Symbol} (hs : t.value = some s) :
    ∃ shown, l.table.get? s = some (Text.ofString shown) ∧ (Text.ofString shown).Shows shown := by
  obtain ⟨xs, e, hlayout, rfl, htable⟩ := layout_of_tokenize rfl h
  rw [start, ofText] at htable
  rw [htable]
  rcases List.mem_append.mp ht with ht | ht
  · obtain ⟨text, hget⟩ :=
      Lexeme.get?_of_mem_tokens (Table.hashed_empty options.policy) xs ht hs
    have hrecords := Table.records_internAll options.policy (Lexeme.texts xs)
    obtain ⟨shown, hshows⟩ := hlayout.shows_texts rfl text (hrecords.mem_of_get? hget)
    obtain rfl := hshows.1
    exact ⟨shown, hget, hshows⟩
  · cases List.mem_singleton.mp ht
    cases hs

end Lexer

end ScriptLang
