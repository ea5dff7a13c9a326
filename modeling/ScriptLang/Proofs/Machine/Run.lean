import ScriptLang.Proofs.Machine.Effect

/-!
# Ticks and runs

`Machine.Turn m m'` says how a tick gets from `m` to `m'`, as far as code and calls go: it stays in
its frame and at most moves to another address, or calls, or returns.  The state of a run after `n`
ticks is `Machine.after n`; a run that is over stays where it ended.

* `turn_tick`: every tick is such a turn, whether it fails or not.
* `after_of_turn`: what every turn keeps, every run keeps.
* `tick_of_interpret_failed`: the error of a run is the error of its last tick.
-/

namespace ScriptLang

/-- The instruction at a place in the code. -/
def FunctionTable.instruction? (t : FunctionTable) (p : CodePoint) : Option Instruction :=
  (t.get? p.function).bind fun code => code[p.address]?

/-- Whether nothing goes on to the next address. -/
def Opcode.endsCode : Opcode → Bool
  | halt | leav | jmp => true
  | _ => false

namespace Machine

variable {i : Instruction} {m m' : Machine}

/-! ### Ticks -/

/-- The ways of a tick through the calls and the code. -/
inductive Turn (m : Machine) : Machine → Prop where
  /-- The frame stays the current one. -/
  | stay {memory : Memory} {stack : List Value} {address : Nat}
      (hpc : address = m.pc.address ∨ ∃ i, m.functions.instruction? m.pc = some i ∧
        (address = m.pc.address + 1 ∧ i.op.endsCode = false ∨ i.op.isJump ∧ address = i.a)) :
      Turn m (({ m with memory := memory }.withStack stack).goto address)
  | call {i : Instruction} {args rest : List Value} (hi : m.functions.instruction? m.pc = some i)
      (hop : i.op = .call) (hf : (m.functions.get? i.a).isSome)
      (hs : m.calls.current.stack = args ++ rest) (hb : args.length = i.b) :
      Turn m (m.called i.a args rest)
  | leave {i : Instruction} {caller : Frame} {callers : List Frame} {results rest : List Value}
      (hi : m.functions.instruction? m.pc = some i) (hop : i.op = .leav)
      (hc : m.calls.callers = caller :: callers) (hs : m.calls.current.stack = results ++ rest)
      (ha : results.length = i.a) : Turn m (m.returned results caller callers)

theorem turn_withStack (stack : List Value) (m : Machine) : Turn m (m.withStack stack) :=
  @Turn.stay m m.memory stack m.pc.address (.inl rfl)

theorem turn_refl (m : Machine) : Turn m m := turn_withStack m.calls.current.stack m

theorem turn_next (hi : m.functions.instruction? m.pc = some i) (hop : i.op.endsCode = false)
    (memory : Memory) (stack : List Value) :
    Turn m (({ m with memory := memory }.withStack stack).goto (m.pc.address + 1)) :=
  .stay (.inr ⟨i, hi, .inl ⟨rfl, hop⟩⟩)

/-- An instruction that computes a cell goes on to the next. -/
theorem endsCode_of_destination {cell : Nat} (hd : i.destination? = some cell) :
    i.op.endsCode = false := by
  unfold Instruction.destination? at hd
  cases hop : i.op <;> simp [hop, Opcode.endsCode] at hd ⊢

theorem fetch_of_instruction (hi : m.functions.instruction? m.pc = some i) :
    fetch m = (.ok i, m) := by
  obtain ⟨code, hcode, hi⟩ := Option.bind_eq_some_iff.mp hi
  simp [fetch, hcode, hi]

/-- A fetch fails where there is no instruction, for want of the function or of the address. -/
theorem fetch_of_none (hi : m.functions.instruction? m.pc = none) :
    ∃ e, fetch m = (.error e, m) ∧
      (m.functions.get? m.pc.function = none ∧ e = .functionNotFound m.pc.function ∨
        ∃ code, m.functions.get? m.pc.function = some code ∧ code.size ≤ m.pc.address ∧
          e = .addressOutOfRange m.pc.function m.pc.address) := by
  cases hcode : m.functions.get? m.pc.function with
  | none => exact ⟨_, by simp only [fetch, hcode], .inl ⟨rfl, rfl⟩⟩
  | some code =>
      have hnone : code[m.pc.address]? = none := by
        simpa [FunctionTable.instruction?, hcode] using hi
      exact ⟨_, by simp only [fetch, hcode, hnone],
        .inr ⟨code, rfl, Array.getElem?_eq_none_iff.mp hnone, rfl⟩⟩

/-- What follows a step: an instruction that transfers no control goes on to the next address. -/
def goOn : Except RuntimeError Flow × Machine → Except RuntimeError Flow × Machine
  | (.ok .next, m) => (.ok .next, m.goto (m.pc.address + 1))
  | result => result

/-- A tick is a step, and going on behind it. -/
theorem tick_of_instruction (hi : m.functions.instruction? m.pc = some i) :
    tick m = goOn (step i m) := by
  rw [tick, Attempt.bind_apply, fetch_of_instruction hi]
  simp only [Attempt.bind_apply]
  rcases step i m with ⟨_ | flow, m'⟩
  · rfl
  · cases flow <;> rfl

/-- Without an instruction a tick is the failure of its fetch. -/
theorem tick_of_none (hi : m.functions.instruction? m.pc = none) :
    ∃ e, fetch m = (.error e, m) ∧ tick m = (.error e, m) := by
  obtain ⟨e, hfetch, -⟩ := fetch_of_none hi
  exact ⟨e, hfetch, by rw [tick, Attempt.bind_apply, hfetch]⟩

/-- **Every tick is a turn.** -/
theorem turn_tick (m : Machine) : Turn m (tick m).2 := by
  cases hi : m.functions.instruction? m.pc with
  | none =>
      obtain ⟨e, -, htick⟩ := tick_of_none hi
      rw [htick]
      exact turn_refl m
  | some i =>
      rw [tick_of_instruction hi]
      have heffect := effect_step i m
      generalize step i m = result at heffect ⊢
      cases heffect with
      | halt | exit | refused | missing | unwritable => exact turn_refl m
      | lost => exact turn_withStack _ m
      | call hop hf hs hb => exact .call hi hop (by simp [hf]) hs hb
      | leave hop hc hs ha => exact .leave hi hop hc hs ha
      | jump hop =>
          exact @Turn.stay m m.memory m.calls.current.stack i.a (.inr ⟨i, hi, .inr ⟨hop, rfl⟩⟩)
      | pass hop =>
          have hnext : i.op.endsCode = false := by rcases hop with hop | hop <;> rw [hop] <;> rfl
          exact turn_next hi hnext m.memory m.calls.current.stack
      | write _ hd _ => exact turn_next hi (endsCode_of_destination hd) _ m.calls.current.stack
      | push hop =>
          have hnext : i.op.endsCode = false := by rcases hop with hop | hop <;> rw [hop] <;> rfl
          exact turn_next hi hnext m.memory _
      | pop hop => exact turn_next hi (by rw [hop]; rfl) _ _

/-- A tick fails where its fetch or its step does. -/
theorem tick_error {e : RuntimeError} (h : tick m = (.error e, m')) :
    (fetch m = (.error e, m) ∧ m' = m) ∨
      ∃ i, m.functions.instruction? m.pc = some i ∧ step i m = (.error e, m') := by
  cases hi : m.functions.instruction? m.pc with
  | none =>
      obtain ⟨e', hfetch, htick⟩ := tick_of_none hi
      rw [h] at htick
      cases htick
      exact .inl ⟨hfetch, rfl⟩
  | some i =>
      rw [tick_of_instruction hi] at h
      refine .inr ⟨i, rfl, ?_⟩
      generalize step i m = result at h ⊢
      rcases result with ⟨_ | flow, m''⟩
      · exact h
      · cases flow <;> cases h

/-! ### Runs -/

/-- The machine after at most `n` ticks of a run. -/
def after (n : Nat) (m : Machine) : Machine := (interpret n m).2

theorem interpret_of_tick {flow : Flow} (h : tick m = (.ok flow, m')) (hflow : flow ≠ .halt)
    (n : Nat) : interpret (n + 1) m = interpret n m' := by
  cases flow with
  | halt => exact absurd rfl hflow
  | next | jump => rw [interpret, h]

/-- One tick more is one tick from where the run is, or none if the run is over. -/
theorem after_succ (n : Nat) (m : Machine) :
    m.after (n + 1) = m.after n ∨ m.after (n + 1) = (tick (m.after n)).2 := by
  induction n generalizing m with
  | zero =>
      refine .inr ?_
      simp only [after, interpret]
      rcases tick m with ⟨_ | flow, m'⟩
      · rfl
      · cases flow <;> rfl
  | succ n ih =>
      unfold after at ih ⊢
      rcases h : tick m with ⟨e | flow, m'⟩
      · exact .inl (by simp only [interpret, h])
      · by_cases hflow : flow = .halt
        · exact .inl (by simp only [interpret, h, hflow])
        · rw [interpret_of_tick h hflow, interpret_of_tick h hflow]
          exact ih m'

/-- **What every turn keeps, every run keeps.** -/
theorem after_of_turn {P : Machine → Prop} (keeps : ∀ m m', P m → Turn m m' → P m') (h : P m)
    (n : Nat) : P (m.after n) := by
  induction n with
  | zero => exact h
  | succ n ih =>
      rcases after_succ n m with heq | heq
      · rw [heq]
        exact ih
      · rw [heq]
        exact keeps _ _ ih (turn_tick _)

/-- **The error of a run** is that of its last tick. -/
theorem tick_of_interpret_failed {n : Nat} {e : RuntimeError}
    (h : interpret n m = (.failed e, m')) : ∃ k, tick (m.after k) = (.error e, m') := by
  induction n generalizing m with
  | zero => cases h
  | succ n ih =>
      rcases htick : tick m with ⟨e' | flow, m''⟩
      · simp only [interpret, htick] at h
        cases h
        exact ⟨0, htick⟩
      · by_cases hflow : flow = .halt
        · simp only [interpret, htick, hflow] at h
          cases h
        · rw [interpret_of_tick htick hflow] at h
          obtain ⟨k, hk⟩ := ih h
          refine ⟨k + 1, ?_⟩
          rw [after, interpret_of_tick htick hflow]
          exact hk

end Machine

end ScriptLang
