import ScriptLang.Machine

/-!
# What an instruction does

`Machine.Effect i m` is the relation between a machine and what the instruction `i` makes of it: the
answer and the machine that is left.  It has a clause for every way an instruction can end, with
what has to be true of the machine before.  Everything about steps is read off it.

* `effect_step`: every step has one of these effects.
* **Failures** (`step_error`).  An instruction that fails leaves the machine as it was, unless it is
  a pop into a cell past the capacity, which has taken its value off the stack by then.
-/

namespace ScriptLang

/-- Whether operand A is an address to go to. -/
def Opcode.isJump : Opcode → Bool
  | jmp | jmpt | jmpf => true
  | _ => false

/-- The cell an instruction computes, if it computes one. -/
def Instruction.destination? (i : Instruction) : Option Nat :=
  match i.op with
  | .store => some (registerCount + i.a)
  | .halt | .push | .dup | .call | .leav | .jmp | .jmpt | .jmpf => none
  | _ => some i.a

namespace Machine

/-- The machine with another operand stack in its current frame. -/
def withStack (stack : List Value) (m : Machine) : Machine :=
  { m with calls := { m.calls with current := { m.calls.current with stack := stack } } }

/-- The machine at another address of the same function. -/
def goto (address : Nat) (m : Machine) : Machine :=
  { m with pc := { m.pc with address := address } }

/-- The machine in the function `callee`, called with `args`; the caller keeps the values `rest`. -/
def called (callee : Nat) (args rest : List Value) (m : Machine) : Machine :=
  { m with
    calls :=
      { current := { source := m.pc, target := { function := callee, address := 0 }, stack := args }
        callers := { m.calls.current with stack := rest } :: m.calls.callers }
    pc := { function := callee, address := 0 } }

/-- The machine back in the frame `caller`, after the call that the current frame came from. -/
def returned (results : List Value) (caller : Frame) (callers : List Frame) (m : Machine) :
    Machine :=
  { m with
    calls := { current := { caller with stack := results ++ caller.stack }, callers := callers }
    pc := { m.calls.current.source with address := m.calls.current.source.address + 1 } }

/-- The answers of an instruction and the machines it leaves. -/
inductive Effect (i : Instruction) (m : Machine) : Except RuntimeError Flow × Machine → Prop where
  | halt (hop : i.op = .halt) : Effect i m (.ok .halt, m)
  /-- A return from the entry frame. -/
  | exit (hop : i.op = .leav) (hc : m.calls.callers = []) : Effect i m (.ok .halt, m)
  | call {code : Code} {args rest : List Value} (hop : i.op = .call)
      (hf : m.functions.get? i.a = some code) (hs : m.calls.current.stack = args ++ rest)
      (hb : args.length = i.b) : Effect i m (.ok .jump, m.called i.a args rest)
  | leave {caller : Frame} {callers : List Frame} {results rest : List Value} (hop : i.op = .leav)
      (hc : m.calls.callers = caller :: callers) (hs : m.calls.current.stack = results ++ rest)
      (ha : results.length = i.a) : Effect i m (.ok .jump, m.returned results caller callers)
  | jump (hop : i.op.isJump) : Effect i m (.ok .jump, m.goto i.a)
  /-- A branch that is not taken. -/
  | pass (hop : i.op = .jmpt ∨ i.op = .jmpf) : Effect i m (.ok .next, m)
  | write {cell : Nat} {v : Value} (hop : i.op ≠ .pop) (hd : i.destination? = some cell)
      (hc : cell < memoryCapacity) :
      Effect i m (.ok .next, { m with memory := m.memory.put cell v })
  | push {v : Value} (hop : i.op = .push ∨ i.op = .dup) :
      Effect i m (.ok .next, m.withStack (v :: m.calls.current.stack))
  | pop {v : Value} {rest : List Value} (hop : i.op = .pop)
      (hs : m.calls.current.stack = v :: rest) (hc : i.a < memoryCapacity) :
      Effect i m (.ok .next, { m with memory := m.memory.put i.a v }.withStack rest)
  | refused {e : RuntimeError}
      (he : e = .nonNumericOperand i.pos ∨ e = .divideByZero i.pos ∨ e = .stackUnderflow i.pos)
      (hs : i.op = .pop → m.calls.current.stack = []) : Effect i m (.error e, m)
  | missing (hop : i.op = .call) (hf : m.functions.get? i.a = none) :
      Effect i m (.error (.functionNotFound i.a), m)
  | unwritable {cell : Nat} {e : MemoryError} (hop : i.op ≠ .pop)
      (hd : i.destination? = some cell) (hc : memoryCapacity ≤ cell) :
      Effect i m (.error (.memory e i.pos), m)
  /-- A pop that cannot write what it has popped. -/
  | lost {v : Value} {rest : List Value} (hop : i.op = .pop)
      (hs : m.calls.current.stack = v :: rest) (hc : memoryCapacity ≤ i.a) :
      Effect i m (.error (.memory (.cellOutOfRange i.a) i.pos), m.withStack rest)

variable {i : Instruction} {m m' : Machine}

/-! ### Steps -/

/-- What is done to memory is either done or refused. -/
theorem onMemory_eq {x : Attempt Memory MemoryError Unit} {cell : Nat} {v : Value} {e : MemoryError}
    (hx : ∀ memory, x memory =
      if cell < memoryCapacity then (.ok (), memory.put cell v) else (.error e, memory))
    (m : Machine) :
    onMemory i x m =
      if cell < memoryCapacity then (.ok (), { m with memory := m.memory.put cell v })
      else (.error (.memory e i.pos), m) := by
  by_cases hc : cell < memoryCapacity
  · simp only [onMemory, hx, if_pos hc]
  · simp only [onMemory, hx, if_neg hc]

/-- An instruction that ends in memory computes a cell or is refused one. -/
theorem effect_onMemory {x : Attempt Memory MemoryError Unit} {cell : Nat} {v : Value}
    {e : MemoryError}
    (hx : ∀ memory, x memory =
      if cell < memoryCapacity then (.ok (), memory.put cell v) else (.error e, memory))
    (hop : i.op ≠ .pop) (hd : i.destination? = some cell) :
    Effect i m ((onMemory i x >>= fun _ => pure Flow.next) m) := by
  rw [Attempt.bind_apply, onMemory_eq hx]
  by_cases hc : cell < memoryCapacity
  · rw [if_pos hc]
    exact .write hop hd hc
  · rw [if_neg hc]
    exact .unwritable hop hd (Nat.le_of_not_lt hc)

theorem write_eq (i : Instruction) (v : Value) (m : Machine) :
    write i v m =
      if i.a < memoryCapacity then (.ok (), { m with memory := m.memory.put i.a v })
      else (.error (.memory (.cellOutOfRange i.a) i.pos), m) :=
  onMemory_eq (fun _ => rfl) m

theorem effect_write (hop : i.op ≠ .pop) (hd : i.destination? = some i.a) (v : Value) :
    Effect i m ((write i v >>= fun _ => pure Flow.next) m) :=
  effect_onMemory (fun _ => rfl) hop hd

/-- An empty stack refuses what needs a value, and the machine stays. -/
theorem effect_underflow (hs : i.op = .pop → m.calls.current.stack = []) :
    Effect i m (.error (.stackUnderflow i.pos), m) :=
  .refused (.inr (.inr rfl)) hs

/-- A pop takes its value before it is known whether the cell can be written. -/
theorem effect_pop (hop : i.op = .pop) : Effect i m (step i m) := by
  simp only [step, hop, compute, Attempt.bind_apply, pop, Frame.pop?]
  cases hs : m.calls.current.stack with
  | nil => exact effect_underflow fun _ => hs
  | cons v rest =>
      by_cases hc : i.a < memoryCapacity
      · simp only [write_eq, if_pos hc]
        exact .pop hop hs hc
      · simp only [write_eq, if_neg hc]
        exact .lost hop hs (Nat.le_of_not_lt hc)

/-- A call looks for the function first and then for its arguments. -/
theorem effect_call (hop : i.op = .call) : Effect i m (call i m) := by
  unfold call Frame.take?
  cases hf : m.functions.get? i.a with
  | none => exact .missing hop hf
  | some code =>
      by_cases hb : i.b ≤ m.calls.current.stack.length
      · simp only [if_pos hb]
        exact .call hop hf (List.take_append_drop ..).symm (List.length_take_of_le hb)
      · simp only [if_neg hb]
        exact effect_underflow (by simp [hop])

/-- A return from the entry frame ends the run, and any other one moves its results. -/
theorem effect_leave (hop : i.op = .leav) : Effect i m (leave i m) := by
  unfold leave Frame.take?
  cases hc : m.calls.callers with
  | nil => exact .exit hop hc
  | cons caller callers =>
      by_cases ha : i.a ≤ m.calls.current.stack.length
      · simp only [if_pos ha]
        exact .leave hop hc (List.take_append_drop ..).symm (List.length_take_of_le ha)
      · simp only [if_neg ha]
        exact effect_underflow (by simp [hop])

theorem effect_read {cell : Nat} {f : Value → Exec Flow} (hf : ∀ v, Effect i m (f v m)) :
    Effect i m ((read cell >>= f) m) := hf _

/-- Reading a number either gives it or refuses. -/
theorem effect_readNumber (hop : i.op ≠ .pop) {cell : Nat} {f : UInt64 → Exec Flow}
    (hf : ∀ x, Effect i m (f x m)) : Effect i m ((readNumber i cell >>= f) m) := by
  simp only [readNumber, Attempt.bind_apply, read]
  cases (m.memory.get cell).number? with
  | none => exact .refused (.inl rfl) fun h => absurd h hop
  | some x => exact hf x

/-- Arithmetic refuses only a division by zero. -/
theorem effect_arithmetic (hop : i.op ≠ .pop) (hd : i.destination? = some i.a) (x y : UInt64) :
    Effect i m ((arithmetic i x y >>= fun v => write i v >>= fun _ => pure Flow.next) m) := by
  unfold arithmetic
  split <;> try exact effect_write hop hd _
  by_cases hz : Number.isZero y
  · rw [if_pos hz]
    exact .refused (.inr (.inl rfl)) fun h => absurd h hop
  · rw [if_neg hz]
    exact effect_write hop hd _

/-- The operands are read as numbers before anything is computed. -/
theorem effect_numeric (hop : i.op ≠ .pop) (hd : i.destination? = some i.a) :
    Effect i m ((readNumber i i.b >>= fun x => readNumber i i.c >>= fun y =>
      arithmetic i x y >>= fun v => write i v >>= fun _ => pure Flow.next) m) :=
  effect_readNumber hop fun _ => effect_readNumber hop fun _ => effect_arithmetic hop hd _ _

theorem effect_peek (hop : i.op ≠ .pop) {f : Value → Exec Flow}
    (hf : ∀ v, Effect i m (f v m)) : Effect i m ((peek i >>= f) m) := by
  simp only [peek, Attempt.bind_apply, Frame.top?]
  cases m.calls.current.stack with
  | nil => exact effect_underflow fun h => absurd h hop
  | cons v rest => exact hf v

/-- A branch goes to its address or on to the next one. -/
theorem effect_branch {taken : Bool} (hop : i.op = .jmpt ∨ i.op = .jmpf) :
    Effect i m ((if taken then jump i else pure .next) m) := by
  cases taken with
  | true => exact .jump (by rcases hop with hop | hop <;> rw [hop] <;> rfl)
  | false => exact .pass hop

/-- **Every step has one of the effects.** -/
theorem effect_step (i : Instruction) (m : Machine) : Effect i m (step i m) := by
  obtain ⟨op, a, b, c, pos⟩ := i
  cases op with
  | halt => exact .halt rfl
  | call => exact effect_call rfl
  | leav => exact effect_leave rfl
  | jmp => exact .jump rfl
  | jmpt => exact effect_branch (.inl rfl)
  | jmpf => exact effect_branch (.inr rfl)
  | push => exact .push (.inl rfl)
  | pop => exact effect_pop rfl
  -- The others read what they need and write at the end.
  | store =>
      simp only [step, compute, Attempt.bind_assoc]
      exact effect_read fun v => effect_onMemory (fun _ => rfl) (by simp) rfl
  | load =>
      simp only [step, compute, Attempt.bind_assoc]
      exact effect_write (by simp) rfl _
  | mov | not =>
      simp only [step, compute, Attempt.bind_assoc]
      exact effect_read fun v => effect_write (by simp) rfl _
  | eq | neq | and | or =>
      simp only [step, compute, Attempt.bind_assoc]
      exact effect_read fun v => effect_read fun w => effect_write (by simp) rfl _
  | peek =>
      simp only [step, compute, Attempt.bind_assoc]
      exact effect_peek (by simp) fun v => effect_write (by simp) rfl v
  | dup =>
      simp only [step, compute, Attempt.bind_assoc]
      exact effect_peek (by simp) fun v => .push (.inr rfl)
  | inv =>
      simp only [step, compute, Attempt.bind_assoc]
      exact effect_readNumber (by simp) fun x => effect_write (by simp) rfl _
  | ge | gt | le | lt | add | sub | mul | div =>
      simp only [step, compute, Attempt.bind_assoc]
      exact effect_numeric (by simp) rfl

/-! ### Failures -/

/-- **Failures.**  An instruction that fails leaves the machine as it was, unless it is a pop into a
cell past the capacity, which has taken its value off the stack by then. -/
theorem step_error {e : RuntimeError} (h : step i m = (.error e, m')) :
    m' = m ∧ ¬ (i.op = .pop ∧ m.calls.current.stack ≠ []) ∨
      i.op = .pop ∧ memoryCapacity ≤ i.a ∧
        ∃ v rest, m.calls.current.stack = v :: rest ∧ m' = m.withStack rest := by
  have heffect := effect_step i m
  rw [h] at heffect
  cases heffect with
  | refused _ hs => exact .inl ⟨rfl, fun hpop => hpop.2 (hs hpop.1)⟩
  | missing hop _ => exact .inl ⟨rfl, by simp [hop]⟩
  | unwritable hop _ _ => exact .inl ⟨rfl, fun hpop => hop hpop.1⟩
  | lost hop hs hc => exact .inr ⟨hop, hc, _, _, hs, rfl⟩

/-- A return with more values than there are leaves the called frame in place. -/
theorem step_error_leave : ∃ m', step { op := .leav, a := 1 } (initial.called 0 [] []) =
    (.error (.stackUnderflow ⟨0, 0⟩), m') ∧ m' = initial.called 0 [] [] := by
  refine ⟨_, rfl, ?_⟩
  rcases step_error (i := { op := .leav, a := 1 }) (m := initial.called 0 [] []) rfl with h | h
  · exact h.1
  · cases h.1

/-- A pop into the first cell past the capacity fails, and its value is gone. -/
theorem not_step_error_unchanged : ¬ ∀ (i : Instruction) (m m' : Machine) (e : RuntimeError),
    step i m = (.error e, m') → m' = m := by
  intro h
  have hpop := h { op := .pop, a := memoryCapacity } (initial.withStack [.nil]) initial
    (.memory (.cellOutOfRange memoryCapacity) ⟨0, 0⟩) rfl
  cases hpop

end Machine

end ScriptLang
