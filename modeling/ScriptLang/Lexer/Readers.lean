import ScriptLang.Lexer.Scanner

/-!
# What the readers keep, the scanner keeps

The scanner reads a lexeme by a few primitive readers, one after another.  So what holds of each of
them, and of one reader after another if it holds of both, holds of the scanner (`Readers.next`).
The readers of a lexeme are gone through once, here, for every such fact: that reading goes forward,
that a wider bound only matters if a text is too long, that the buffer stays within its bound.

* `Readers P`: what is asked of a fact `P`.
* `Readers.exists_number`, `Readers.exists_string`: the parts of the readers that read in two steps.
* `Readers.next`: what follows for the scanner.
-/

namespace ScriptLang.Scanner

/-- What holds of the primitive readers, and of one reader after another if it holds of both. -/
structure Readers (P : {α : Type} → Scan α → Prop) : Prop where
  bind : ∀ {α β : Type} {x : Scan α} {f : α → Scan β}, P x → (∀ a, P (f a)) → P (x >>= f)
  pure : ∀ {α : Type} (a : α), P (Pure.pure a : Scan α)
  fail : ∀ {α : Type} (e : LexError), P (Attempt.fail e : Scan α)
  remaining : P Scanner.remaining
  position : P Scanner.position
  skip : ∀ n, P (Scanner.skip n)
  skipTrivia : P Scanner.skipTrivia
  copy : ∀ keep run, P (Scanner.copy keep run)
  write : ∀ b, P (Scanner.write b)
  take : P Scanner.take

namespace Readers

variable {P : {α : Type} → Scan α → Prop} (h : Readers P)
include h

theorem word : P Scanner.word :=
  h.bind h.remaining fun _ => h.bind (h.copy _ _) fun _ => h.take

/-- A number is copied, and then its end is looked at. -/
theorem exists_number : ∃ behind : Unit → Scan Text, (∀ u, P (behind u)) ∧
    Scanner.number = Scanner.remaining >>= fun rest =>
      Scanner.copy (fun b => !isUnderscore b) (numberRun false rest) >>= behind := by
  refine ⟨_, fun _ => h.bind h.remaining fun after => ?_, rfl⟩
  split
  · exact h.bind h.position fun _ => h.fail _
  · exact h.take

theorem number : P Scanner.number := by
  obtain ⟨behind, hbehind, heq⟩ := h.exists_number
  rw [heq]
  exact h.bind h.remaining fun _ => h.bind (h.copy _ _) hbehind

/-- The opening quote of a string is passed over, and then its text is read. -/
theorem exists_string (quote : UInt8) : ∃ behind : Unit → Scan Text, (∀ u, P (behind u)) ∧
    Scanner.string quote = Scanner.skip 1 >>= behind := by
  refine ⟨_, fun _ => h.bind (h.write _) fun _ => h.bind h.remaining fun _ =>
    h.bind (h.copy _ _) fun _ => h.bind h.remaining fun after => ?_, rfl⟩
  split
  · exact h.bind h.take fun _ => h.fail _
  · split
    · exact h.bind (h.skip 1) fun _ => h.take
    · exact h.bind h.position fun _ => h.fail _

theorem string (quote : UInt8) : P (Scanner.string quote) := by
  obtain ⟨behind, hbehind, heq⟩ := h.exists_string quote
  rw [heq]
  exact h.bind (h.skip 1) hbehind

/-- A lexeme is read by one of the readers of texts, or a sign is passed over. -/
theorem lexeme (b : UInt8) (rest : Text) (pos : Position) : P (Scanner.lexeme b rest pos) := by
  unfold Scanner.lexeme
  split
  · exact h.bind (h.string b) fun _ => h.pure _
  split
  · exact h.bind h.number fun _ => h.pure _
  split
  · refine h.bind h.word fun text => ?_
    split <;> exact h.pure _
  split
  · exact h.bind (h.skip _) fun _ => h.pure _
  · exact h.fail _

/-- **What the readers keep, the scanner keeps.** -/
theorem next : P Scanner.next := by
  refine h.bind h.skipTrivia fun _ => h.bind h.position fun pos => h.bind h.remaining fun rest => ?_
  split
  · exact h.pure _
  · exact h.lexeme _ _ _

end Readers

end ScriptLang.Scanner
