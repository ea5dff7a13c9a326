import ScriptLang.Proofs.Machine.Confinement

/-!
# Checked code is safe

What can be seen in the code alone can be checked before it runs: that no function lets control run
out of it, that calls name functions that exist, and that the cells an instruction computes are
below the capacity.  In a run of checked functions control is always at an instruction, in whatever
frame it is and wherever it comes back to (`instruction_after`).  What is left to fail depends on
values: an operand that is no number, a division by zero, an operand stack that is too short.

* `step_error_of_checked`: an instruction of checked code fails in one of these ways, and then
  control stays where it is.
* **Safety** (`run_safe`).  An error of a run of checked functions is one of the three and points at
  the instruction that control is left at.
-/

namespace ScriptLang

/-- Code that control does not run out of, that calls functions of `t` and computes cells that
memory can have. -/
structure Code.Checked (t : FunctionTable) (code : Code) : Prop extends Code.Confined code where
  calls : ∀ i ∈ code, i.op = .call → (t.get? i.a).isSome
  cells : ∀ i ∈ code, ∀ cell, i.destination? = some cell → cell < memoryCapacity

/-- All functions are checked. -/
def FunctionTable.Checked (t : FunctionTable) : Prop :=
  ∀ f code, t.get? f = some code → code.Checked t

theorem FunctionTable.Checked.code {t : FunctionTable} (ht : t.Checked) {p : CodePoint}
    {i : Instruction} (hi : t.instruction? p = some i) :
    ∃ code : Code, code.Checked t ∧ i ∈ code := by
  obtain ⟨code, hcode, hi⟩ := Option.bind_eq_some_iff.mp hi
  exact ⟨code, ht _ code hcode, Array.mem_of_getElem? hi⟩

namespace Machine

variable {m m' : Machine} {start : Nat} {i : Instruction} {e : RuntimeError}

/-- **One instruction** of checked code can fail only for its operands, and nothing has happened
then. -/
theorem step_error_of_checked {code : Code} (hcode : code.Checked m.functions) (hi : i ∈ code)
    (h : step i m = (.error e, m')) : m' = m ∧
      (e = .nonNumericOperand i.pos ∨ e = .divideByZero i.pos ∨ e = .stackUnderflow i.pos) := by
  have heffect := effect_step i m
  rw [h] at heffect
  cases heffect with
  | refused he => exact ⟨rfl, he⟩
  | missing hop hf =>
      have hsome := hcode.calls i hi hop
      rw [hf] at hsome
      cases hsome
  | @unwritable cell _ _ hd hc => exact absurd (hcode.cells i hi cell hd) (Nat.not_lt_of_le hc)
  | lost hop _ hc =>
      have hd : i.destination? = some i.a := by rw [Instruction.destination?, hop]
      exact absurd (hcode.cells i hi i.a hd) (Nat.not_lt_of_le hc)

/-- **The run** of checked functions is always at an instruction. -/
theorem instruction_after (hchecked : m.functions.Checked)
    (hstart : (m.functions.get? start).isSome) (n : Nat) :
    ∃ i, m.functions.instruction? ((m.enter start).after n).pc = some i := by
  have hrunning := running_after m start n
  obtain ⟨code, hcode⟩ := Option.isSome_iff_exists.mp (hrunning.chain.isSome hstart)
  have hlt := address_lt_after hcode (hchecked _ code hcode).toConfined start n rfl
  exact ⟨_, by rw [instruction?_of_get hcode rfl, Array.getElem?_eq_getElem hlt]⟩

/-- **Safety.**  If all functions are checked, then a run of one of them misses no function, no
address and no cell.  It fails only for the operands of an instruction, at its position, and control
is left at this instruction. -/
theorem run_safe (hchecked : m.functions.Checked) (hstart : (m.functions.get? start).isSome)
    (n : Nat) (hfailed : (run n start m).1 = .failed e) :
    ∃ i, m.functions.instruction? (run n start m).2.pc = some i ∧
      (e = .nonNumericOperand i.pos ∨ e = .divideByZero i.pos ∨ e = .stackUnderflow i.pos) := by
  have hrun : run n start m = (.failed e, (run n start m).2) := Prod.ext hfailed rfl
  obtain ⟨k, htick⟩ := tick_of_interpret_failed hrun
  have hfunctions := (running_after m start k).functions
  obtain ⟨i, hi⟩ := instruction_after hchecked hstart k
  have hi' := hi
  rw [← hfunctions] at hi'
  -- There is an instruction to fetch, so it is the step that fails.
  rcases tick_error htick with ⟨hfetch, -⟩ | ⟨j, hj, hstep⟩
  · rw [fetch_of_instruction hi'] at hfetch
    cases hfetch
  · obtain rfl : i = j := Option.some.inj (hi'.symm.trans hj)
    obtain ⟨code, hcode, hmem⟩ := hchecked.code hi
    rw [← hfunctions] at hcode
    obtain ⟨hlast, he⟩ := step_error_of_checked hcode hmem hstep
    exact ⟨i, by rw [hlast]; exact hi, he⟩

/-- A call of a function that branches, computes a cell and then pops from its empty stack. -/
def underflowing : Machine :=
  { initial with functions := { slots := [some #[{ op := .call, a := 1 }, .halt],
      some #[{ op := .jmpt, a := 0, b := 2 }, { op := .eq, a := 3, b := 1, c := 2 },
        { op := .pop, a := 3, pos := ⟨4, 7⟩ }, { op := .jmp, a := 1 }]] } }

/-- The functions are checked, and the run fails in the called one, at the position of the pop. -/
theorem run_safe_underflow : underflowing.functions.Checked ∧
    (underflowing.functions.get? 0).isSome ∧
    (run 4 0 underflowing).1 = .failed (.stackUnderflow ⟨4, 7⟩) ∧
    ∃ i, underflowing.functions.instruction? (run 4 0 underflowing).2.pc = some i ∧
      i.op = .pop ∧ i.pos = ⟨4, 7⟩ := by
  have hchecked : underflowing.functions.Checked := by
    rintro (_ | _ | f) code hcode
    · cases hcode
      exact ⟨⟨⟨_, rfl, rfl⟩, by decide⟩, by decide, by decide⟩
    · cases hcode
      exact ⟨⟨⟨_, rfl, rfl⟩, by decide⟩, by decide, by decide⟩
    · cases hcode
  refine ⟨hchecked, rfl, rfl, ?_⟩
  obtain ⟨i, hi, -⟩ :=
    @run_safe underflowing 0 (.stackUnderflow ⟨4, 7⟩) hchecked rfl 4 rfl
  cases hi
  exact ⟨_, rfl, rfl, rfl⟩

end Machine

end ScriptLang
