import ScriptLang.Proofs.Machine.CallChain
import ScriptLang.Proofs.Memory.Writes

/-!
# The footprint of a run

An instruction writes at most the cell it computes, its `Instruction.destination?`, and only if it
succeeds.  What a run writes is then read off the instructions it executes (`Machine.executed`).
Growing memory to reach a cell moves others into it that nobody wrote, so what stays the same is
what cells read as, not the cells there are (`Memory.ChangesOnly`).

* `memory_of_effect`: a step leaves memory alone, or puts one value into its destination.
* `changesOnly_after`: a run changes only destinations of what it executes.
* **Frame rule** (`frame_after`).  This, for every run of any length, with the functions and the
  size of memory.
-/

namespace ScriptLang

/-! ### Memory -/

/-- What was not `written` reads as before, and memory is not shorter. -/
structure Memory.ChangesOnly (written : Nat → Prop) (before after : Memory) : Prop where
  size_le : before.size ≤ after.size
  get_eq : ∀ cell, ¬ written cell → after.get cell = before.get cell

namespace Memory.ChangesOnly

variable {written written' : Nat → Prop} {m m' m'' : Memory}

theorem refl (m : Memory) : ChangesOnly written m m := ⟨Nat.le_refl _, fun _ _ => rfl⟩

/-- What neither of two changes wrote reads as before both. -/
theorem trans (h : ChangesOnly written m m') (h' : ChangesOnly written m' m'') :
    ChangesOnly written m m'' :=
  ⟨Nat.le_trans h.size_le h'.size_le, fun cell hc => (h'.get_eq cell hc).trans (h.get_eq cell hc)⟩

theorem mono (h : ChangesOnly written m m') (hsub : ∀ cell, written cell → written' cell) :
    ChangesOnly written' m m' :=
  ⟨h.size_le, fun cell hc => h.get_eq cell fun hw => hc (hsub cell hw)⟩

theorem put {cell : Nat} (hw : written cell) (m : Memory) (v : Value) :
    ChangesOnly written m (m.put cell v) := by
  refine ⟨?_, fun other hother => get_put_of_ne ?_ m v⟩
  · rw [size_put]
    exact Nat.le_max_left ..
  · rintro rfl
    exact hother hw

end Memory.ChangesOnly

namespace Machine

variable {i : Instruction} {m m' : Machine}

/-! ### Steps -/

/-- **One step** leaves memory alone, or succeeds and puts a value into its destination. -/
theorem memory_of_effect {result : Except RuntimeError Flow × Machine} (h : Effect i m result) :
    result.2.memory = m.memory ∨ ∃ cell v, i.destination? = some cell ∧ result.1 = .ok .next ∧
      result.2.memory = m.memory.put cell v := by
  cases h with
  | write _ hd _ => exact .inr ⟨_, _, hd, rfl, rfl⟩
  | pop hop _ _ =>
      have hd : i.destination? = some i.a := by rw [Instruction.destination?, hop]
      exact .inr ⟨_, _, hd, rfl, rfl⟩
  | halt | exit | call | leave | jump | pass | push | refused | missing | unwritable | lost =>
      exact .inl rfl

/-- An instruction that computes no cell leaves memory alone. -/
theorem memory_step_of_no_destination (hd : i.destination? = none) (m : Machine) :
    (step i m).2.memory = m.memory := by
  rcases memory_of_effect (effect_step i m) with heq | ⟨cell, v, hcell, -⟩
  · exact heq
  · rw [hd] at hcell
    cases hcell

/-- **One step** changes at most the cell that its instruction computes. -/
theorem changesOnly_step (i : Instruction) (m : Machine) :
    Memory.ChangesOnly (fun cell => i.destination? = some cell) m.memory (step i m).2.memory := by
  rcases memory_of_effect (effect_step i m) with heq | ⟨cell, v, hcell, -, heq⟩
  · rw [heq]
    exact .refl _
  · rw [heq]
    exact .put hcell _ v

/-- A step that fails leaves memory alone, a pop that cannot write its value too. -/
theorem memory_step_of_error {e : RuntimeError} (h : step i m = (.error e, m')) :
    m'.memory = m.memory := by
  have heffect := effect_step i m
  rw [h] at heffect
  rcases memory_of_effect heffect with heq | ⟨_, _, _, hok, _⟩
  · exact heq
  · cases hok

/-! ### Ticks -/

theorem goOn_memory (result : Except RuntimeError Flow × Machine) :
    (goOn result).2.memory = result.2.memory := by
  rcases result with ⟨_ | flow, m⟩
  · rfl
  · cases flow <;> rfl

/-- A tick changes what its step does: going on to the next address is nothing to memory. -/
theorem changesOnly_tick (hi : m.functions.instruction? m.pc = some i) :
    Memory.ChangesOnly (fun cell => i.destination? = some cell) m.memory (tick m).2.memory := by
  rw [tick_of_instruction hi, goOn_memory]
  exact changesOnly_step i m

/-- A tick that fails leaves memory alone, for want of an instruction or in its step. -/
theorem memory_tick_of_error {e : RuntimeError} (h : tick m = (.error e, m')) :
    m'.memory = m.memory := by
  rcases tick_error h with ⟨-, rfl⟩ | ⟨i, -, hstep⟩
  · rfl
  · exact memory_step_of_error hstep

/-! ### Runs -/

/-- The instructions that a run of at most `n` ticks executes, in order.  One that fails is the last
of the run and does not count. -/
def executed : Nat → Machine → List Instruction
  | 0, _ => []
  | n + 1, m =>
    match m.functions.instruction? m.pc with
    | none => []
    | some i =>
      match tick m with
      | (.ok .halt, _) => [i]
      | (.ok _, m') => i :: executed n m'
      | (.error _, _) => []

/-- The cells that a run computes. -/
def Computes (n : Nat) (m : Machine) (cell : Nat) : Prop :=
  ∃ i ∈ executed n m, i.destination? = some cell

/-- **A run** changes only the destinations of what it executes. -/
theorem changesOnly_after (n : Nat) (m : Machine) :
    Memory.ChangesOnly (Computes n m) m.memory (m.after n).memory := by
  induction n generalizing m with
  | zero => exact .refl _
  | succ n ih =>
      unfold Computes after
      rw [executed, interpret]
      cases hi : m.functions.instruction? m.pc with
      | none =>
          obtain ⟨e, -, htick⟩ := tick_of_none hi
          rw [htick]
          exact .refl _
      | some i =>
          have hfirst := changesOnly_tick hi
          rcases htick : tick m with ⟨e | flow, m'⟩
          · simp only
            rw [memory_tick_of_error htick]
            exact .refl _
          · rw [htick] at hfirst
            have hrest : ∀ cell, Computes n m' cell →
                ∃ j ∈ i :: executed n m', j.destination? = some cell := by
              rintro cell ⟨j, hj, hd⟩
              exact ⟨j, List.mem_cons_of_mem i hj, hd⟩
            cases flow with
            | halt => exact hfirst.mono fun cell hd => ⟨i, List.mem_singleton_self i, hd⟩
            | next | jump =>
                exact (hfirst.mono fun cell hd => ⟨i, List.mem_cons_self, hd⟩).trans
                  ((ih m').mono hrest)

theorem functions_after (n : Nat) (m : Machine) : (m.after n).functions = m.functions :=
  after_of_turn (P := fun s => s.functions = m.functions)
    (fun _ _ hm hturn => hturn.functions_eq.trans hm) rfl n

/-- **Frame rule.**  Whatever the machine, and however long it runs and however that ends: the
functions are the same, memory is not shorter, and every cell that is not the destination of an
instruction that was executed reads as before, whether memory has grown past it or not.  An
instruction that only moves values to the stack or transfers control leaves memory alone. -/
theorem frame_after (n : Nat) (m : Machine) :
    (m.after n).functions = m.functions ∧
    m.memory.size ≤ (m.after n).memory.size ∧
    (∀ cell, (∀ i ∈ executed n m, i.destination? ≠ some cell) →
      (m.after n).memory.get cell = m.memory.get cell) ∧
    ∀ i : Instruction, i.op ∈ [.push, .dup, .call, .leav, .halt, .jmp, .jmpt, .jmpf] →
      ∀ s : Machine, (step i s).2.memory = s.memory := by
  have hchanges := changesOnly_after n m
  refine ⟨functions_after n m, hchanges.size_le, fun cell hcell => ?_, fun i hop s => ?_⟩
  · refine hchanges.get_eq cell ?_
    rintro ⟨i, hi, hd⟩
    exact hcell i hi hd
  · refine memory_step_of_no_destination ?_ s
    rw [Instruction.destination?]
    simp only [List.mem_cons, List.not_mem_nil, or_false] at hop
    rcases hop with hop | hop | hop | hop | hop | hop | hop | hop <;> rw [hop]

/-- A run that stores a local and then fails to negate a boolean: memory has grown over cells that
read as nil before and after, and the instruction that failed has not counted. -/
example :
    let code : Code := #[{ op := .store, a := 2, b := 0 }, { op := .inv, a := 3, b := 10 }]
    let m : Machine :=
      { initial with memory := initial.memory.put 0 (.bool true), functions := ⟨[some code]⟩ }
    executed 5 m = [{ op := .store, a := 2, b := 0 }] ∧
      (m.after 5).memory.size = 11 ∧ (m.after 5).memory.get 9 = .nil := by
  decide

end Machine

end ScriptLang
