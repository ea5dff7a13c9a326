import Mathlib.Data.List.Basic
import ScriptLang.Text

/-!
# Characters of a text

The bytes of a string can be cut behind an ASCII byte and before one: such a byte is a character of
its own, and is not found within a longer one.

* `exists_append_of_ascii`: both sides of such a cut are the bytes of characters.
* `firstChar_append`: a text that begins with the bytes of a character begins with that
  character.
* `toString_ofString`: the bytes of a string stand for that string.
-/

namespace ScriptLang.Text

/-- The last byte, if there is one, is ASCII. -/
def EndsAscii (t : Text) : Prop := ∀ b ∈ t.getLast?, b < 128

theorem EndsAscii.append_of_ne_nil {u : Text} (hu : u.EndsAscii) (hne : u ≠ []) (t : Text) :
    (t ++ u).EndsAscii := by
  rw [EndsAscii, List.getLast?_append_of_ne_nil t hne]
  exact hu

theorem EndsAscii.append {t u : Text} (ht : t.EndsAscii) (hu : u.EndsAscii) :
    (t ++ u).EndsAscii := by
  by_cases hne : u = []
  · rw [hne, List.append_nil]
    exact ht
  · exact hu.append_of_ne_nil hne t

theorem endsAscii_of_forall {t : Text} (h : ∀ b ∈ t, b < 128) : t.EndsAscii :=
  fun b hb => h b (List.mem_of_getLast? hb)

theorem endsAscii_concat (t : Text) {b : UInt8} (hb : b < 128) : (t ++ [b]).EndsAscii :=
  (endsAscii_of_forall (by simpa using hb)).append_of_ne_nil (List.cons_ne_nil b []) t

/-- A character has one byte, its own number, or bytes that are not ASCII. -/
theorem utf8EncodeChar_cases (c : Char) :
    String.utf8EncodeChar c = [UInt8.ofNat c.toNat] ∨ ∀ b ∈ String.utf8EncodeChar c, 128 ≤ b := by
  have hlarge : ∀ n, 128 ≤ n → n < 256 → 128 ≤ UInt8.ofNat n := by
    intro n hn hlt
    rw [UInt8.le_iff_toNat_le, UInt8.toNat_ofNat_of_lt' hlt]
    exact hn
  unfold String.utf8EncodeChar
  dsimp only
  split
  · exact .inl rfl
  · refine .inr ?_
    split
    · simp only [List.forall_mem_cons]
      exact ⟨hlarge _ (by omega) (by omega), hlarge _ (by omega) (by omega), nofun⟩
    · split
      · simp only [List.forall_mem_cons]
        exact ⟨hlarge _ (by omega) (by omega), hlarge _ (by omega) (by omega),
          hlarge _ (by omega) (by omega), nofun⟩
      · simp only [List.forall_mem_cons]
        exact ⟨hlarge _ (by omega) (by omega), hlarge _ (by omega) (by omega),
          hlarge _ (by omega) (by omega), hlarge _ (by omega) (by omega), nofun⟩

/-- A character is not cut by an ASCII byte. -/
theorem eq_nil_of_utf8EncodeChar {c : Char} {a b : Text} (h : String.utf8EncodeChar c = a ++ b)
    (hcut : a.EndsAscii ∨ ∃ x ∈ b.head?, x < 128) : a = [] ∨ b = [] := by
  by_contra hne
  rw [not_or] at hne
  obtain ⟨y, hy⟩ := List.getLast?_isSome.mpr hne.1 |> Option.isSome_iff_exists.mp
  rcases utf8EncodeChar_cases c with hone | hlarge
  · have hlength := congrArg List.length (hone.symm.trans h)
    have ha := List.length_pos_iff.mpr hne.1
    have hb := List.length_pos_iff.mpr hne.2
    simp only [List.length_singleton, List.length_append] at hlength
    omega
  · rw [h] at hlarge
    rcases hcut with hlast | ⟨x, hx, hascii⟩
    · have hmem := List.mem_append_left b (List.mem_of_getLast? hy)
      exact absurd (hlarge y hmem) (UInt8.not_le.mpr (hlast y hy))
    · have hmem := List.mem_append_right a (List.mem_of_mem_head? hx)
      exact absurd (hlarge x hmem) (UInt8.not_le.mpr hascii)

/-- Behind an ASCII byte, at the start, and before an ASCII byte, the bytes of characters can be
cut. -/
theorem exists_append_of_ascii {cs : List Char} {a b : Text}
    (h : cs.flatMap String.utf8EncodeChar = a ++ b)
    (hcut : a.EndsAscii ∨ ∃ x ∈ b.head?, x < 128) :
    ∃ cs₁ cs₂, cs = cs₁ ++ cs₂ ∧ cs₁.flatMap String.utf8EncodeChar = a ∧
      cs₂.flatMap String.utf8EncodeChar = b := by
  induction cs generalizing a with
  | nil =>
      obtain ⟨rfl, rfl⟩ := List.append_eq_nil_iff.mp h.symm
      exact ⟨[], [], rfl, rfl, rfl⟩
  | cons c cs ih =>
      rw [List.flatMap_cons] at h
      rcases List.append_eq_append_iff.mp h with ⟨a', rfl, hrest⟩ | ⟨b', hchar, rfl⟩
      · have hcut' : EndsAscii a' ∨ ∃ x ∈ b.head?, x < 128 :=
          hcut.imp_left fun hlast x hx => hlast x (List.mem_getLast?_append_of_mem_getLast? hx)
        obtain ⟨cs₁, cs₂, rfl, rfl, hb⟩ := ih hrest hcut'
        exact ⟨c :: cs₁, cs₂, rfl, List.flatMap_cons, hb⟩
      · -- The cut is at one of the two ends of the first character.
        by_cases hb' : b' = []
        · subst hb'
          rw [List.append_nil] at hchar
          exact ⟨[c], cs, rfl, by rw [List.flatMap_singleton, hchar], rfl⟩
        · have hcut' : a.EndsAscii ∨ ∃ x ∈ b'.head?, x < 128 := by
            refine hcut.imp_right ?_
            rintro ⟨x, hx, hascii⟩
            exact ⟨x, by rwa [List.head?_append_of_ne_nil _ hb'] at hx, hascii⟩
          obtain rfl := (eq_nil_of_utf8EncodeChar hchar hcut').resolve_right hb'
          exact ⟨[], c :: cs, rfl, rfl, by rw [List.flatMap_cons, hchar]; rfl⟩

/-- The character that a text begins with, if it begins with the bytes of one. -/
theorem firstChar_append (c : Char) (t : Text) : firstChar (String.utf8EncodeChar c ++ t) = c := by
  have htake : (String.utf8EncodeChar c ++ t).take 4 =
      String.utf8EncodeChar c ++ t.take (4 - c.utf8Size) := by
    have hle := c.utf8Size_le_four
    rw [List.take_append, String.length_utf8EncodeChar,
      List.take_of_length_le (by rw [String.length_utf8EncodeChar]; exact hle)]
  have hbytes : (⟨((String.utf8EncodeChar c ++ t).take 4).toArray⟩ : ByteArray) =
      (String.utf8EncodeChar c).toByteArray ++ (t.take (4 - c.utf8Size)).toByteArray := by
    rw [htake, ← List.toByteArray_append]
    exact ByteArray.ext List.data_toByteArray.symm
  simp only [firstChar, hbytes, ByteArray.utf8DecodeChar?_utf8EncodeChar_append]

/-- The bytes of a string stand for that string. -/
theorem toString_ofString (s : String) : (ofString s).toString = s := by
  have hbytes : (⟨(ofString s).toArray⟩ : ByteArray) = s.toByteArray := by
    rw [← String.utf8Encode_toList]
    exact ByteArray.ext List.data_toByteArray.symm
  have hvalid : s.toByteArray.IsValidUTF8 := s.isValidUTF8
  simp only [toString, hbytes, String.fromUTF8?, hvalid, dite_true, Option.getD_some]
  rfl

end ScriptLang.Text
