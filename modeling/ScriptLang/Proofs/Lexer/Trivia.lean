import ScriptLang.Lexer.Cursor

/-!
# What stands between tokens

Blanks, line ends, line comments and block comments, as the source spells them (`Trivium`), and runs
of them (`Trivia`).  The cursor passes over such a run up to the first byte that begins a token.

The cursor takes two line ends of a pair in one step, and keeps count of lines.  Neither matters for
where it stops, so the proof goes by `Zone.skip?`, which takes every line end by itself and has no
positions.

* `triviaFrom_of_skip?`: the cursor stops where `Zone.skip?` says, and fails where it says nothing.
* **Trivia** (`trivia_eq_ok_iff`).  The cursor passes over a text just if the text is trivia, up to
  a token or the end.
-/

namespace ScriptLang

/-- A piece of trivia before the bytes `rest`. -/
inductive Trivium : Text → Text → Prop where
  | blank {b : UInt8} {rest : Text} (hb : isBlank b ∨ isLineEnd b) : Trivium [b] rest
  /-- From a `#` that is not before another to the end of the line. -/
  | lineComment {body rest : Text} (hhash : body.head? ≠ some hashMark)
      (hbody : ∀ b ∈ body, isLineEnd b = false) (hrest : ∀ b ∈ rest.head?, isLineEnd b) :
      Trivium (hashMark :: body) rest
  /-- From `##` to the first `##` after it. -/
  | blockComment {body rest : Text} (hbody : ¬ [hashMark, hashMark] <:+: body ++ [hashMark]) :
      Trivium ([hashMark, hashMark] ++ body ++ [hashMark, hashMark]) rest

/-- A text is trivia and then the rest. -/
inductive Trivia : Text → Text → Prop where
  | nil {rest : Text} : Trivia rest rest
  | cons {piece rest rest' : Text} (h : Trivium piece rest) (hs : Trivia rest rest') :
      Trivia (piece ++ rest) rest'

/-- Whether a byte is the first of a token, wherever it is not in a comment. -/
def beginsToken (b : UInt8) : Bool := !isLineEnd b && b != hashMark && !isBlank b

/-- Nothing, or a byte that begins a token. -/
def AtToken (t : Text) : Prop := ∀ b ∈ t.head?, beginsToken b

namespace Cursor

/-! ### Where the cursor stops -/

namespace Zone

/-- What trivia leaves of a text in a zone; nothing if a comment is not closed. -/
def skip? : Zone → Text → Option Text
  | plain, [] | lineComment, [] => some []
  | blockComment, [] | blockComment, [_] => none
  | plain, [b] => if isLineEnd b || isBlank b || b == hashMark then some [] else some [b]
  | plain, b :: c :: t =>
    if isLineEnd b || isBlank b then plain.skip? (c :: t)
    else if b == hashMark then
      if c == hashMark then blockComment.skip? t else lineComment.skip? (c :: t)
    else some (b :: c :: t)
  | lineComment, b :: t => if isLineEnd b then plain.skip? t else lineComment.skip? t
  | blockComment, b :: c :: t =>
    if b == hashMark && c == hashMark then plain.skip? t else blockComment.skip? (c :: t)

theorem skip?_blank {b : UInt8} (hb : isLineEnd b || isBlank b) (t : Text) :
    plain.skip? (b :: t) = plain.skip? t := by
  cases t with
  | nil => simp [skip?, hb]
  | cons c t => simp [skip?, hb]

theorem skip?_token {b : UInt8} (hb : beginsToken b) (t : Text) :
    plain.skip? (b :: t) = some (b :: t) := by
  simp only [beginsToken, Bool.and_eq_true, Bool.not_eq_true', bne_iff_ne] at hb
  cases t with
  | nil => simp [skip?, hb]
  | cons c t => simp [skip?, hb]

/-- A single mark begins a comment up to the end of its line. -/
theorem skip?_hash {t : Text} (ht : t.head? ≠ some hashMark) :
    plain.skip? (hashMark :: t) = lineComment.skip? t := by
  cases t with
  | nil => rfl
  | cons c t =>
      have hc : (c == hashMark) = false := beq_eq_false_iff_ne.mpr fun h => ht (h ▸ rfl)
      have hblank : (isLineEnd hashMark || isBlank hashMark) = false := rfl
      simp [skip?, hc, hblank]

theorem skip?_hashes (t : Text) :
    plain.skip? (hashMark :: hashMark :: t) = blockComment.skip? t := rfl

/-- Within a block comment all is skipped but its end. -/
theorem skip?_block {b : UInt8} {t : Text} (h : b = hashMark → t.head? ≠ some hashMark) :
    blockComment.skip? (b :: t) = blockComment.skip? t := by
  cases t with
  | nil => rfl
  | cons c t =>
      have hbc : ¬ (b == hashMark && c == hashMark) := by
        rw [Bool.and_eq_true, beq_iff_eq, beq_iff_eq]
        exact fun hbc => h hbc.1 (hbc.2 ▸ rfl)
      rw [skip?, if_neg hbc]

theorem ne_hashMark_of_isLineEnd {b : UInt8} (hb : isLineEnd b) : b ≠ hashMark := by
  rintro rfl
  cases hb

/-- A line end in a zone ends a line comment and nothing else. -/
theorem skip?_lineEnd {b : UInt8} (hb : isLineEnd b) (zone : Zone) (t : Text) :
    zone.skip? (b :: t) = (if zone = lineComment then plain else zone).skip? t := by
  cases zone with
  | plain => exact skip?_blank (by simp [hb]) t
  | lineComment => rw [skip?, if_pos hb, if_pos rfl]
  | blockComment => exact skip?_block fun h => absurd h (ne_hashMark_of_isLineEnd hb)

/-- The cursor stops only outside comments, where a token begins. -/
theorem move_eq_none {zone : Zone} {b : UInt8} {next : Option UInt8}
    (h : zone.move b next = none) : zone = plain ∧ beginsToken b := by
  unfold move at h
  cases hend : isLineEnd b <;> cases hhash : b == hashMark <;> cases zone <;>
    simp_all [beginsToken]

/-- The second of a pair of line ends is one more line end. -/
theorem skip?_pair {b : UInt8} (hb : isLineEnd b) (zone : Zone) (t : Text) :
    zone.skip? (b :: t) = (if zone = lineComment then plain else zone).skip?
      (if t.head?.any fun n => isLineEnd n && n != b then t.tail else t) := by
  rw [skip?_lineEnd hb]
  by_cases hpaired : t.head?.any fun n => isLineEnd n && n != b
  · rw [if_pos hpaired]
    cases t with
    | nil => cases hpaired
    | cons c t =>
        have hc : isLineEnd c := by
          simp only [List.head?_cons, Option.any_some, Bool.and_eq_true] at hpaired
          exact hpaired.1
        rw [skip?_lineEnd hc]
        cases zone <;> rfl
  · rw [if_neg hpaired]

/-- A move of the cursor goes on with what is left after it. -/
theorem skip?_move {zone : Zone} {b : UInt8} {t : Text} {m : Move}
    (h : zone.move b t.head? = some m) :
    zone.skip? (b :: t) = m.zone.skip? (if m.paired then t.tail else t) := by
  unfold move at h
  by_cases hend : isLineEnd b
  · rw [if_pos hend] at h
    obtain rfl := Option.some.inj h
    exact skip?_pair hend zone t
  rw [if_neg hend] at h
  by_cases hhash : b = hashMark
  · subst hhash
    rw [if_pos (beq_self_eq_true _)] at h
    by_cases hnext : t.head? = some hashMark
    · obtain ⟨t, rfl⟩ : ∃ t', t = hashMark :: t' := List.head?_eq_some_iff.mp hnext
      cases zone <;> obtain rfl := Option.some.inj h <;> rfl
    · have hpaired : (t.head? == some hashMark) = false := beq_eq_false_iff_ne.mpr hnext
      rw [hpaired] at h
      cases zone with
      | plain =>
          obtain rfl := Option.some.inj h
          exact skip?_hash hnext
      | lineComment =>
          obtain rfl := Option.some.inj h
          rw [skip?, if_neg hend]
          rfl
      | blockComment =>
          obtain rfl := Option.some.inj h
          exact skip?_block fun _ => hnext
  · rw [if_neg (by simpa using hhash)] at h
    cases zone with
    | plain =>
        by_cases hblank : isBlank b
        · rw [if_pos hblank] at h
          obtain rfl := Option.some.inj h
          exact skip?_blank (by simp [hblank]) t
        · rw [if_neg hblank] at h
          cases h
    | lineComment =>
        obtain rfl := Option.some.inj h
        rw [skip?, if_neg hend]
        rfl
    | blockComment =>
        obtain rfl := Option.some.inj h
        exact skip?_block fun h => absurd h hhash

end Zone

/-- **The cursor stops** where trivia leaves off, or fails because a comment is not closed. -/
theorem triviaFrom_of_skip? (zone : Zone) (p : Position) (t : Text) :
    match zone.skip? t with
    | some rest => ∃ p', triviaFrom zone p t = (.ok (), ⟨rest, p'⟩)
    | none => ∃ c, triviaFrom zone p t = (.error .unterminatedComment, c) := by
  fun_induction triviaFrom zone p t with
  | case1 zone p =>
      cases zone with
      | plain | lineComment => exact ⟨p, rfl⟩
      | blockComment => exact ⟨_, rfl⟩
  | case2 zone p b rest hmove =>
      obtain ⟨rfl, hb⟩ := Zone.move_eq_none hmove
      rw [Zone.skip?_token hb]
      exact ⟨p, rfl⟩
  | case3 zone p b m c rest hpaired hmove ih =>
      rw [Zone.skip?_move hmove, if_pos hpaired]
      exact ih
  | case4 zone p b m rest hsingle hmove ih =>
      have hrest : (if m.paired then rest.tail else rest) = rest := by
        split
        next hpaired =>
          cases rest with
          | nil => rfl
          | cons c rest => exact (hsingle c rest hpaired rfl).elim
        next => rfl
      rw [Zone.skip?_move hmove, hrest]
      exact ih

/-! ### Pieces of trivia -/

namespace Zone

/-- A comment ends at the end of its line or of the source. -/
theorem skip?_line {body rest : Text} (hbody : ∀ b ∈ body, isLineEnd b = false)
    (hrest : ∀ b ∈ rest.head?, isLineEnd b) :
    lineComment.skip? (body ++ rest) = plain.skip? rest := by
  induction body with
  | nil =>
      cases rest with
      | nil => rfl
      | cons b rest =>
          have hb := hrest b rfl
          rw [List.nil_append, skip?_lineEnd hb, skip?_lineEnd hb]
          rfl
  | cons b body ih =>
      rw [List.cons_append, skip?, hbody b (List.mem_cons_self ..)]
      exact ih fun c hc => hbody c (List.mem_cons_of_mem _ hc)

/-- A block comment ends at the first `##` behind its beginning. -/
theorem skip?_comment {body : Text} (hbody : ¬ [hashMark, hashMark] <:+: body ++ [hashMark])
    (rest : Text) :
    blockComment.skip? (body ++ hashMark :: hashMark :: rest) = plain.skip? rest := by
  induction body with
  | nil => rfl
  | cons b body ih =>
      rw [List.cons_append, List.infix_cons_iff, not_or] at hbody
      rw [List.cons_append, skip?_block, ih hbody.2]
      -- If `b` and the next byte closed the comment, they would do so in the body.
      rintro rfl hnext
      refine hbody.1 ?_
      cases body with
      | nil => exact List.prefix_refl _
      | cons c body =>
          cases hnext
          exact ⟨body ++ [hashMark], rfl⟩

/-- A piece of trivia is passed over. -/
theorem skip?_trivium {piece rest : Text} (h : Trivium piece rest) :
    plain.skip? (piece ++ rest) = plain.skip? rest := by
  cases h with
  | blank hb => exact skip?_blank (by simpa [or_comm] using hb) rest
  | @lineComment body _ hhash hbody hrest =>
      have hhash' : (body ++ rest).head? ≠ some hashMark := by
        cases body with
        | nil => exact fun h => absurd rfl (ne_hashMark_of_isLineEnd (hrest _ h))
        | cons b body => exact hhash
      rw [List.cons_append, skip?_hash hhash', skip?_line hbody hrest]
  | @blockComment body _ hbody =>
      have happend : [hashMark, hashMark] ++ body ++ [hashMark, hashMark] ++ rest =
          hashMark :: hashMark :: (body ++ hashMark :: hashMark :: rest) := by simp
      rw [happend, skip?_hashes, skip?_comment hbody]

/-- **Trivia is skipped** up to the token behind it. -/
theorem skip?_trivia {t rest : Text} (h : Trivia t rest) (hrest : AtToken rest) :
    plain.skip? t = some rest := by
  induction h with
  | @nil rest =>
      cases rest with
      | nil => rfl
      | cons b rest => exact skip?_token (hrest b rfl) rest
  | cons h _ ih => rw [skip?_trivium h, ih hrest]

/-- What is passed over in a zone: the rest of a comment, then trivia up to a token. -/
def Passes (zone : Zone) (t rest : Text) : Prop :=
  match zone with
  | plain => Trivia t rest ∧ AtToken rest
  | lineComment => ∃ body t', t = body ++ t' ∧ (∀ b ∈ body, isLineEnd b = false) ∧
      (∀ b ∈ t'.head?, isLineEnd b) ∧ Trivia t' rest ∧ AtToken rest
  | blockComment => ∃ body t', t = body ++ hashMark :: hashMark :: t' ∧
      ¬ [hashMark, hashMark] <:+: body ++ [hashMark] ∧ Trivia t' rest ∧ AtToken rest

theorem passes_nil : plain.Passes [] [] := ⟨.nil, nofun⟩

theorem passes_token {b : UInt8} {t : Text} (hb : beginsToken b) : plain.Passes (b :: t) (b :: t) :=
  ⟨.nil, fun c hc => by cases hc; exact hb⟩

section Passes

variable {b : UInt8} {t rest : Text}

theorem Passes.blank (hb : isLineEnd b || isBlank b) (h : plain.Passes t rest) :
    plain.Passes (b :: t) rest :=
  ⟨.cons (.blank (by simpa [or_comm] using hb)) h.1, h.2⟩

theorem Passes.lineEnd (hb : isLineEnd b) (h : plain.Passes t rest) :
    lineComment.Passes (b :: t) rest :=
  ⟨[], b :: t, rfl, nofun, fun c hc => by cases hc; exact hb, h.blank (by simp [hb])⟩

/-- A line comment goes on to the end of its line. -/
theorem Passes.inLine (hb : isLineEnd b = false) (h : lineComment.Passes t rest) :
    lineComment.Passes (b :: t) rest := by
  obtain ⟨body, t', rfl, hbody, hpasses⟩ := h
  exact ⟨b :: body, t', rfl, List.forall_mem_cons.mpr ⟨hb, hbody⟩, hpasses⟩

/-- A single mark makes trivia of the rest of a line comment. -/
theorem Passes.openLine (ht : t.head? ≠ some hashMark) (h : lineComment.Passes t rest) :
    plain.Passes (hashMark :: t) rest := by
  obtain ⟨body, t', rfl, hbody, hend, htrivia, hrest⟩ := h
  have hhash : body.head? ≠ some hashMark := by
    cases body with
    | nil => nofun
    | cons c body => exact ht
  exact ⟨.cons (.lineComment hhash hbody hend) htrivia, hrest⟩

theorem Passes.close (h : plain.Passes t rest) :
    blockComment.Passes (hashMark :: hashMark :: t) rest :=
  ⟨[], t, rfl, by decide, h⟩

/-- A block comment goes on with whatever is not its end. -/
theorem Passes.inBlock (hb : b = hashMark → t.head? ≠ some hashMark)
    (h : blockComment.Passes t rest) : blockComment.Passes (b :: t) rest := by
  obtain ⟨body, t', rfl, hbody, hpasses⟩ := h
  refine ⟨b :: body, t', rfl, ?_, hpasses⟩
  rw [List.cons_append, List.infix_cons_iff, not_or]
  refine ⟨fun hclose => ?_, hbody⟩
  obtain ⟨rfl, hnext⟩ := List.cons_prefix_cons.mp hclose
  refine hb rfl ?_
  cases body with
  | nil => rfl
  | cons c body =>
      rw [List.cons_append, List.cons_prefix_cons] at hnext
      exact congrArg some hnext.1.symm

/-- Two marks make trivia of the rest of a block comment. -/
theorem Passes.openBlock (h : blockComment.Passes t rest) :
    plain.Passes (hashMark :: hashMark :: t) rest := by
  obtain ⟨body, t', rfl, hbody, htrivia, hrest⟩ := h
  have hcons := Trivia.cons (.blockComment hbody) htrivia
  exact ⟨by simpa using hcons, hrest⟩

end Passes

/-- All that is passed over is trivia. -/
theorem passes_of_skip? {zone : Zone} {t rest : Text} (h : zone.skip? t = some rest) :
    zone.Passes t rest := by
  fun_induction skip? zone t with
  | case1 => cases h; exact passes_nil
  | case2 => cases h; exact ⟨[], [], rfl, nofun, nofun, passes_nil⟩
  | case3 | case4 => cases h
  | case5 b hb =>
      cases h
      by_cases hhash : b = hashMark
      · subst hhash
        exact .openLine nofun ⟨[], [], rfl, nofun, nofun, passes_nil⟩
      · exact passes_nil.blank (by simpa [hhash] using hb)
  | case6 b hb =>
      cases h
      exact passes_token (by simp_all [beginsToken])
  | case7 b c t hb ih => exact (ih h).blank hb
  | case8 b c t _ hb hc ih =>
      cases eq_of_beq hb
      cases eq_of_beq hc
      exact (ih h).openBlock
  | case9 b c t _ hb hc ih =>
      cases eq_of_beq hb
      exact .openLine (by simpa using hc) (ih h)
  | case10 b c t hblank hb =>
      cases h
      exact passes_token (by simp_all [beginsToken])
  | case11 b t hb ih => exact .lineEnd hb (ih h)
  | case12 b t hb ih => exact .inLine (by simpa using hb) (ih h)
  | case13 b c t hbc ih =>
      simp only [Bool.and_eq_true, beq_iff_eq] at hbc
      obtain ⟨rfl, rfl⟩ := hbc
      exact (ih h).close
  | case14 b c t hbc ih =>
      refine .inBlock ?_ (ih h)
      rintro rfl hc
      cases hc
      exact hbc rfl

end Zone

/-- **Trivia.**  The cursor passes over a text to `rest` just if the text is trivia up to `rest`,
and `rest` begins a token or is empty. -/
theorem trivia_eq_ok_iff (t : Text) (p : Position) (rest : Text) :
    (∃ p', trivia ⟨t, p⟩ = (.ok (), ⟨rest, p'⟩)) ↔ Trivia t rest ∧ AtToken rest := by
  have hskip := triviaFrom_of_skip? .plain p t
  constructor
  · rintro ⟨p', htrivia⟩
    cases hs : Zone.plain.skip? t with
    | none =>
        rw [hs] at hskip
        obtain ⟨c, hc⟩ := hskip
        cases htrivia.symm.trans hc
    | some rest' =>
        rw [hs] at hskip
        obtain ⟨c, hc⟩ := hskip
        cases htrivia.symm.trans hc
        exact Zone.passes_of_skip? hs
  · rintro ⟨htrivia, hrest⟩
    rw [Zone.skip?_trivia htrivia hrest] at hskip
    exact hskip

/-- Four `#` open and close a comment, and three only open one. -/
example : Zone.plain.skip? (Text.ofString "####a") = some (Text.ofString "a") ∧
    Zone.plain.skip? (Text.ofString "###a") = none := by
  decide

end Cursor

end ScriptLang
