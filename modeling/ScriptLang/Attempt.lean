/-!
# Attempts

An `Attempt σ ε α` works on a state `σ` and either answers with an `α` or fails with an `ε`.  The
state survives a failure: whoever goes on after an error goes on from where the attempt stopped.
The lexer, the parser, the memory and the machine are all of this kind.

* `Attempt.bind_apply`: a success hands on its answer and its state, and nothing runs after a
  failure.  So two attempts succeed just if each does (`Attempt.bind_eq_ok_iff`).
* `Attempt.Keeps.bind`: what each of two attempts keeps, they keep one after the other.
-/

namespace ScriptLang

/-- A computation on a state that may fail and keeps its state when it does. -/
def Attempt (σ ε α : Type) : Type := σ → Except ε α × σ

namespace Attempt

variable {σ ε α β γ : Type}

/-- Answers with `a` and leaves the state alone. -/
def pure (a : α) : Attempt σ ε α := fun s => (.ok a, s)

/-- Fails with `e` and leaves the state alone. -/
def fail (e : ε) : Attempt σ ε α := fun s => (.error e, s)

/-- Runs `x`, then `f` on its answer from the state `x` left. -/
def bind (x : Attempt σ ε α) (f : α → Attempt σ ε β) : Attempt σ ε β := fun s =>
  match x s with
  | (.ok a, s') => f a s'
  | (.error e, s') => (.error e, s')

instance : Monad (Attempt σ ε) where
  pure := Attempt.pure
  bind := Attempt.bind

@[simp] theorem pure_apply (a : α) (s : σ) : (Pure.pure a : Attempt σ ε α) s = (.ok a, s) := rfl

@[simp] theorem fail_apply (e : ε) (s : σ) : (fail e : Attempt σ ε α) s = (.error e, s) := rfl

/-- A success hands on its answer and its state, and nothing runs after a failure. -/
theorem bind_apply (x : Attempt σ ε α) (f : α → Attempt σ ε β) (s : σ) :
    (x >>= f) s =
      match x s with
      | (.ok a, s') => f a s'
      | (.error e, s') => (.error e, s') := rfl

/-- Two attempts succeed one after the other just if each of them does. -/
theorem bind_eq_ok_iff {x : Attempt σ ε α} {f : α → Attempt σ ε β} {s s'' : σ} {b : β} :
    (x >>= f) s = (.ok b, s'') ↔ ∃ a s', x s = (.ok a, s') ∧ f a s' = (.ok b, s'') := by
  rw [bind_apply]
  rcases x s with ⟨_ | a, s'⟩
  · simp
  · refine ⟨fun h => ⟨a, s', rfl, h⟩, ?_⟩
    rintro ⟨_, _, ⟨⟩, h⟩
    exact h

theorem pure_bind (a : α) (f : α → Attempt σ ε β) : (Pure.pure a >>= f) = f a := rfl

theorem bind_assoc (x : Attempt σ ε α) (f : α → Attempt σ ε β) (g : β → Attempt σ ε γ) :
    ((x >>= f) >>= g) = x >>= fun a => f a >>= g := by
  funext s
  simp only [bind_apply]
  rcases x s with ⟨_ | a, s'⟩ <;> rfl

/-- Two attempts that go on alike after every answer of `x` from `s` do the same from `s`. -/
theorem bind_congr {x : Attempt σ ε α} {f g : α → Attempt σ ε β} {s : σ}
    (h : ∀ a s', x s = (.ok a, s') → f a s' = g a s') : (x >>= f) s = (x >>= g) s := by
  simp only [bind_apply]
  split
  next a s' hx => exact h a s' hx
  next => rfl

/-- Whether it succeeds or fails, `x` relates the state before to the state after by `R`. -/
def Keeps (R : σ → σ → Prop) (x : Attempt σ ε α) : Prop := ∀ s, R s (x s).2

/-- What each of two attempts keeps, they keep one after the other. -/
theorem Keeps.bind {R : σ → σ → Prop} (trans : ∀ a b c, R a b → R b c → R a c)
    {x : Attempt σ ε α} {f : α → Attempt σ ε β} (hx : Keeps R x) (hf : ∀ a, Keeps R (f a)) :
    Keeps R (x >>= f) := by
  intro s
  have h := hx s
  rw [bind_apply]
  split <;> rename_i heq
  · rw [heq] at h
    exact trans _ _ _ h (hf _ _)
  · rw [heq] at h
    exact h

end Attempt

end ScriptLang
