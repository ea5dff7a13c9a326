import ScriptLang.Proofs.Lexer.Layout

/-!
# Positions of a source

A row is a count of newlines, and a column a count of bytes behind the last of them.
`Text.positionAt` says so for any offset of a source, from the source as a whole: a newline is one
of the units that runs of CR and LF fall into, from left to right, if CR LF and LF CR are taken
together.  The cursor never sees the source as a whole.  It counts what it passes over.

* `Whole.after_eq`: over a text that cuts no newline, counting comes to the same.
* `Cursor.Reaches`: one cursor is ahead of another and has counted what is between them.
* **Counting is true** (`Cursor.Reaches.eq_ofOffset`).  A cursor that is reached from the start of a
  source has the position of its offset.
-/

namespace ScriptLang

/-! ### Newlines -/

namespace Text

/-- The offsets right behind the newlines of a text that itself stands at the offset `n`.  CR LF and
LF CR are one newline, and so is every other CR or LF. -/
def newlinesFrom (n : Nat) : Text → List Nat
  | [] => []
  | [b] => if isLineEnd b then [n + 1] else []
  | b :: c :: t =>
    if isLineEnd b then
      if isLineEnd c && c != b then (n + 2) :: newlinesFrom (n + 2) t
      else (n + 1) :: newlinesFrom (n + 1) (c :: t)
    else newlinesFrom (n + 1) (c :: t)

/-- The position of an offset of a source: a row for each newline before it, and a column for each
byte behind the last of these. -/
def positionAt (source : Text) (offset : Nat) : Position :=
  let ends := (newlinesFrom 0 source).filter (· ≤ offset)
  { row := 1 + ends.length, col := 1 + (offset - ends.getLastD 0) }

variable {b c : UInt8} {t : Text}

theorem newlinesFrom_cons (hb : isLineEnd b = false) (n : Nat) (t : Text) :
    newlinesFrom n (b :: t) = newlinesFrom (n + 1) t := by
  cases t with
  | nil => simp [newlinesFrom, hb]
  | cons c t => simp [newlinesFrom, hb]

theorem newlinesFrom_lineEnd (hb : isLineEnd b) (ht : ∀ c ∈ t.head?, isLineEnd c → c = b)
    (n : Nat) : newlinesFrom n (b :: t) = (n + 1) :: newlinesFrom (n + 1) t := by
  cases t with
  | nil => simp [newlinesFrom, hb]
  | cons c t =>
      have hc : ¬ (isLineEnd c && c != b) := by
        rw [Bool.and_eq_true, bne_iff_ne]
        exact fun hc => hc.2 (ht c rfl hc.1)
      rw [newlinesFrom, if_pos hb, if_neg hc]

theorem newlinesFrom_pair (hb : isLineEnd b) (hc : isLineEnd c) (hne : c ≠ b) (n : Nat)
    (t : Text) : newlinesFrom n (b :: c :: t) = (n + 2) :: newlinesFrom (n + 2) t := by
  simp [newlinesFrom, hb, hc, hne]

/-- Newlines end behind where the text begins. -/
theorem lt_of_mem_newlinesFrom {n e : Nat} (h : e ∈ newlinesFrom n t) : n < e := by
  fun_induction newlinesFrom n t with
  | case1 | case3 => cases h
  | case2 n b =>
      cases List.mem_singleton.mp h
      exact Nat.lt_succ_self n
  | case4 n b c t _ _ ih | case5 n b c t _ _ ih =>
      rcases List.mem_cons.mp h with rfl | h
      · omega
      · exact Nat.lt_trans (by omega) (ih h)
  | case6 n b c t _ ih => exact Nat.lt_trans (Nat.lt_succ_self n) (ih h)

/-- A mixed run of line ends is taken apart from the left: LF CR, LF, CR LF, CR LF. -/
example : newlinesFrom 0 [10, 13, 10, 10, 13, 13, 10] = [2, 3, 5, 7] := by decide

end Text

/-! ### Counting -/

namespace Position

/-- Bytes that are no line ends are columns. -/
theorem after_eq_right {t : Text} (ht : ∀ b ∈ t, isLineEnd b = false) (p : Position) :
    p.after t = p.right t.length := by
  induction t generalizing p with
  | nil => rfl
  | cons b t ih =>
      obtain ⟨hb, ht⟩ := List.forall_mem_cons.mp ht
      rw [after_cons hb, ih ht, List.length_cons]
      simp only [right, Nat.add_assoc, Nat.add_comm 1]

end Position

namespace Whole

/-- A text without line ends cuts no newline, whatever stands behind it. -/
theorem of_forall {t : Text} (ht : ∀ b ∈ t, isLineEnd b = false) (rest : Text) : Whole t rest := by
  induction t with
  | nil => exact .nil
  | cons b t ih =>
      obtain ⟨hb, ht⟩ := List.forall_mem_cons.mp ht
      exact .byte hb (ih ht)

variable {t u rest : Text}

/-- Texts one after the other are whole if each is before what follows it. -/
theorem append (h : Whole t (u ++ rest)) (hu : Whole u rest) : Whole (t ++ u) rest := by
  generalize hmore : u ++ rest = more at h
  induction h with
  | nil => exact hu
  | byte hb _ ih => exact .byte hb (ih hmore)
  | @newline b t more hb hnext _ ih =>
      subst hmore
      rw [← List.append_assoc] at hnext
      exact .newline hb hnext (ih rfl)
  | pair hb hc hne _ ih => exact .pair hb hc hne (ih hmore)

/-- Counting goes on where no newline is cut. -/
theorem after_append (h : Whole t (u ++ rest)) (p : Position) :
    p.after (t ++ u) = (p.after t).after u := by
  generalize hmore : u ++ rest = more at h
  induction h generalizing p with
  | nil => rfl
  | byte hb _ ih =>
      rw [List.cons_append, Position.after_cons hb, Position.after_cons hb, ih _ hmore]
  | @newline b t more hb hnext _ ih =>
      subst hmore
      rw [← List.append_assoc] at hnext
      have hfirst : ∀ c ∈ (t ++ u).head?, isLineEnd c → c = b :=
        fun c hc => hnext c (List.mem_head?_append_of_mem_head? hc)
      have hfirst' : ∀ c ∈ t.head?, isLineEnd c → c = b :=
        fun c hc => hfirst c (List.mem_head?_append_of_mem_head? hc)
      rw [List.cons_append, Position.after_lineEnd hb hfirst, Position.after_lineEnd hb hfirst',
        ih _ rfl]
  | pair hb hc hne _ ih =>
      rw [List.cons_append, List.cons_append, Position.after_pair hb hc hne,
        Position.after_pair hb hc hne, ih _ hmore]

/-- **Counting** over a text at the offset `n`, in a row whose first byte has the offset `e`, finds
the newlines of the source that end within the text. -/
theorem after_eq (h : Whole t rest) {n e : Nat} (he : e ≤ n) (row : Nat) :
    let ends := (Text.newlinesFrom n (t ++ rest)).filter (· ≤ n + t.length)
    Position.after ⟨row, 1 + (n - e)⟩ t =
      ⟨row + ends.length, 1 + (n + t.length - ends.getLastD e)⟩ := by
  induction h generalizing n e row with
  | @nil rest =>
      have hends : (Text.newlinesFrom n rest).filter (· ≤ n) = [] :=
        List.filter_eq_nil_iff.mpr fun e he => by simpa using Text.lt_of_mem_newlinesFrom he
      simp [hends, Position.after]
  | @byte b t rest hb _ ih =>
      intro ends
      have hlength : n + (b :: t).length = n + 1 + t.length := Nat.add_right_comm n t.length 1
      have hends : ends =
          (Text.newlinesFrom (n + 1) (t ++ rest)).filter (· ≤ n + 1 + t.length) := by
        rw [← hlength, ← Text.newlinesFrom_cons hb]
        rfl
      have hcol : Position.right ⟨row, 1 + (n - e)⟩ 1 = ⟨row, 1 + (n + 1 - e)⟩ := by
        rw [Position.right, Nat.add_assoc, ← Nat.sub_add_comm he]
      rw [Position.after_cons hb, hcol, ih (Nat.le_succ_of_le he), hlength, hends]
  | @newline b t rest hb hnext _ ih =>
      intro ends
      have hlength : n + (b :: t).length = n + 1 + t.length := Nat.add_right_comm n t.length 1
      have hends : ends = (n + 1) ::
          (Text.newlinesFrom (n + 1) (t ++ rest)).filter (· ≤ n + 1 + t.length) := by
        rw [← List.filter_cons_of_pos (by simp), ← Text.newlinesFrom_lineEnd hb hnext, ← hlength]
        rfl
      have hline : Position.nextLine ⟨row, 1 + (n - e)⟩ = ⟨row + 1, 1 + (n + 1 - (n + 1))⟩ := by
        rw [Position.nextLine, Nat.sub_self]
      have hfirst : ∀ c ∈ t.head?, isLineEnd c → c = b :=
        fun c hc => hnext c (List.mem_head?_append_of_mem_head? hc)
      rw [Position.after_lineEnd hb hfirst, hline, ih (Nat.le_refl _), hlength, hends,
        List.length_cons, List.getLastD_cons, Nat.add_right_comm row, Nat.add_assoc row]
  | @pair b c t rest hb hc hne _ ih =>
      intro ends
      have hlength : n + (b :: c :: t).length = n + 2 + t.length := Nat.add_right_comm n t.length 2
      have hends : ends = (n + 2) ::
          (Text.newlinesFrom (n + 2) (t ++ rest)).filter (· ≤ n + 2 + t.length) := by
        rw [← List.filter_cons_of_pos (by simp), ← Text.newlinesFrom_pair hb hc hne, ← hlength]
        rfl
      have hline : Position.nextLine ⟨row, 1 + (n - e)⟩ = ⟨row + 1, 1 + (n + 2 - (n + 2))⟩ := by
        rw [Position.nextLine, Nat.sub_self]
      rw [Position.after_pair hb hc hne, hline, ih (Nat.le_refl _), hlength, hends,
        List.length_cons, List.getLastD_cons, Nat.add_right_comm row, Nat.add_assoc row]

/-- **Two ways of counting.**  The position of an offset is where the text before it ends, if no
newline is cut there. -/
theorem positionAt_eq (h : Whole t rest) :
    (t ++ rest).positionAt t.length = Position.after ⟨1, 1⟩ t := by
  have hcount := h.after_eq (Nat.le_refl 0) 1
  rw [Nat.zero_add] at hcount
  exact hcount.symm

end Whole

/-! ### Cursors -/

namespace Cursor

/-- The cursor at an offset of a source. -/
def ofOffset (source : Text) (offset : Nat) : Cursor :=
  { rest := source.drop offset, pos := source.positionAt offset }

/-- The cursor `c'` is ahead of `c`, in the middle of no newline, and has counted what is between
them. -/
def Reaches (c c' : Cursor) : Prop :=
  ∃ t, c.rest = t ++ c'.rest ∧ Whole t c'.rest ∧ c'.pos = c.pos.after t

namespace Reaches

theorem refl (c : Cursor) : c.Reaches c := ⟨[], rfl, .nil, rfl⟩

/-- A cursor that goes on from where it is goes on from where it began. -/
theorem trans {a b c : Cursor} (hab : a.Reaches b) (hbc : b.Reaches c) : a.Reaches c := by
  obtain ⟨t, ht, hwhole, hpos⟩ := hab
  obtain ⟨u, hu, hwhole', hpos'⟩ := hbc
  rw [hu] at hwhole
  refine ⟨t ++ u, ?_, hwhole.append hwhole', ?_⟩
  · rw [ht, hu, List.append_assoc]
  · rw [hpos', hpos, hwhole.after_append]

/-- **Counting is true**: a cursor that is reached from the start of a source has the position of
its offset. -/
theorem eq_ofOffset {source : Text} {c : Cursor} (h : (ofText source).Reaches c) :
    c = ofOffset source (source.length - c.rest.length) := by
  obtain ⟨t, rfl, hwhole, hpos⟩ := h
  have hoffset : (t ++ c.rest).length - c.rest.length = t.length := by
    rw [List.length_append, Nat.add_sub_cancel]
  have hcount : c.pos = Position.after ⟨1, 1⟩ t := hpos
  rw [hoffset, ofOffset, hwhole.positionAt_eq, List.drop_left, ← hcount]

end Reaches

/-- Passing over trivia goes on counting. -/
theorem reaches_trivia (c : Cursor) : c.Reaches c.trivia.2 := triviaFrom_after .plain c.pos c.rest

/-- Bytes that are no line ends can be passed over together. -/
theorem reaches_skip {c : Cursor} {run : Text} (hrun : run <+: c.rest)
    (hline : ∀ b ∈ run, isLineEnd b = false) : c.Reaches (c.skip run.length) := by
  obtain ⟨rest, hrest⟩ := hrun
  have hdrop : (c.skip run.length).rest = rest := by
    rw [skip, ← hrest]
    exact List.drop_left
  refine ⟨run, ?_, .of_forall hline _, (Position.after_eq_right hline c.pos).symm⟩
  rw [hdrop, hrest]

end Cursor

end ScriptLang
