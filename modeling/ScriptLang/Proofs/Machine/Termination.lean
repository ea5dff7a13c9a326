import Mathlib.Algebra.GroupWithZero.Nat
import ScriptLang.Proofs.Machine.CallChain

/-!
# Code without loops

A run can go on for ever only if some jump goes back or some function calls itself in the end.  In a
table that `Descends`, jumps go forward and calls go to functions with smaller ids.  Then the
instructions from a place to the end of its code, with all that their calls execute, bound what can
still be executed from there, and `FunctionTable.work` counts them.

A machine has this work before it at its program counter and, in addition, at every place that a
suspended call returns to (`Machine.work`).  A call moves the work of its function from the
instruction to the program counter, a return moves the work of the caller back there, and either way
the instruction itself is done with.

* `work_lt_of_tick`: every tick that goes on leaves less work.
* **Code without loops halts** (`run_descending`), within as many ticks as there is work, and one.
-/

namespace ScriptLang

namespace FunctionTable

/-- Jumps go forward, and calls go to functions with smaller ids. -/
structure Descends (t : FunctionTable) : Prop where
  jump : ∀ p i, t.instruction? p = some i → i.op.isJump → p.address < i.a
  call : ∀ p i, t.instruction? p = some i → i.op = .call → i.a < p.function

/-- The instructions from a place to the end of its code. -/
def codeFrom (t : FunctionTable) (p : CodePoint) : List Instruction :=
  match t.get? p.function with
  | none => []
  | some code => code.toList.drop p.address

/-- The instructions from a place to the end of its code, each counted with the work of what it
calls. -/
def work (t : FunctionTable) (p : CodePoint) : Nat :=
  ((t.codeFrom p).map fun i =>
    1 + if _h : i.op = .call ∧ i.a < p.function then t.work { function := i.a, address := 0 }
      else 0).sum
termination_by p.function
decreasing_by exact _h.2

variable {t : FunctionTable} {p : CodePoint} {i : Instruction}

/-- The code from an address on begins with the instruction there. -/
theorem codeFrom_of_instruction (hi : t.instruction? p = some i) :
    t.codeFrom p = i :: t.codeFrom { p with address := p.address + 1 } := by
  obtain ⟨code, hcode, hi⟩ := Option.bind_eq_some_iff.mp hi
  obtain ⟨ha, rfl⟩ := Array.getElem?_eq_some_iff.mp hi
  simp only [codeFrom, hcode]
  exact List.drop_eq_getElem_cons ha

/-- An instruction is done once, and with it what it calls. -/
theorem Descends.work_of_instruction (h : t.Descends) (hi : t.instruction? p = some i) :
    t.work p = 1 + (if i.op = .call then t.work { function := i.a, address := 0 } else 0) +
      t.work { p with address := p.address + 1 } := by
  rw [work, codeFrom_of_instruction hi, List.map_cons, List.sum_cons,
    work.eq_def t { p with address := p.address + 1 }]
  by_cases hop : i.op = .call
  · simp [hop, h.call p i hi hop]
  · simp [hop]

/-- The next address has less work before it. -/
theorem Descends.work_succ_lt (h : t.Descends) (hi : t.instruction? p = some i) :
    t.work { p with address := p.address + 1 } < t.work p := by
  rw [h.work_of_instruction hi]
  omega

/-- Less is left further on. -/
theorem work_anti (t : FunctionTable) (f : Nat) {a b : Nat} (hab : a ≤ b) :
    t.work { function := f, address := b } ≤ t.work { function := f, address := a } := by
  have hsuffix : t.codeFrom { function := f, address := b } <:+
      t.codeFrom { function := f, address := a } := by
    simp only [codeFrom]
    cases t.get? f with
    | none => exact List.suffix_refl _
    | some code => exact List.drop_suffix_drop_left _ hab
  obtain ⟨skipped, hskipped⟩ := hsuffix
  rw [work, work.eq_def t { function := f, address := a }, ← hskipped, List.map_append,
    List.sum_append]
  exact Nat.le_add_left _ _

end FunctionTable

namespace Machine

variable {i : Instruction} {m m' : Machine}

/-- Where the running calls return to, the innermost first.  The entry frame returns nowhere. -/
def returnPoints : Frame → List Frame → List CodePoint
  | _, [] => []
  | frame, caller :: callers =>
    { frame.source with address := frame.source.address + 1 } :: returnPoints caller callers

theorem returnPoints_withStack (frame : Frame) (stack : List Value) (callers : List Frame) :
    returnPoints { frame with stack := stack } callers = returnPoints frame callers := by
  cases callers <;> rfl

/-- The work before a machine: what it runs, and what waits for it to return. -/
def work (m : Machine) : Nat :=
  m.functions.work m.pc +
    ((returnPoints m.calls.current m.calls.callers).map m.functions.work).sum

/-! ### Ticks -/

/-- The ways of a tick that goes on. -/
inductive Progress (i : Instruction) (m : Machine) : Machine → Prop where
  | move {memory : Memory} {stack : List Value} {address : Nat}
      (hpc : address = m.pc.address + 1 ∨ i.op.isJump ∧ address = i.a) :
      Progress i m (({ m with memory := memory }.withStack stack).goto address)
  | call {args rest : List Value} (hop : i.op = .call) : Progress i m (m.called i.a args rest)
  | leave {results : List Value} {caller : Frame} {callers : List Frame}
      (hc : m.calls.callers = caller :: callers) :
      Progress i m (m.returned results caller callers)

theorem progress_next (memory : Memory) (stack : List Value) :
    Progress i m (({ m with memory := memory }.withStack stack).goto (m.pc.address + 1)) :=
  .move (.inl rfl)

/-- **A tick that goes on** moves on, calls or returns. -/
theorem progress_of_tick {flow : Flow} (h : tick m = (.ok flow, m')) (hflow : flow ≠ .halt) :
    ∃ i, m.functions.instruction? m.pc = some i ∧ Progress i m m' := by
  cases hi : m.functions.instruction? m.pc with
  | none =>
      obtain ⟨e, -, htick⟩ := tick_of_none hi
      cases h.symm.trans htick
  | some i =>
      refine ⟨i, rfl, ?_⟩
      rw [tick_of_instruction hi] at h
      have heffect := effect_step i m
      generalize step i m = result at heffect h
      cases heffect with
      | halt | exit =>
          cases h
          exact absurd rfl hflow
      | refused | missing | unwritable | lost => cases h
      | call hop =>
          cases h
          exact .call hop
      | leave _ hc =>
          cases h
          exact .leave hc
      | jump hop =>
          cases h
          exact @Progress.move i m m.memory m.calls.current.stack i.a (.inr ⟨hop, rfl⟩)
      | pass =>
          cases h
          exact progress_next m.memory m.calls.current.stack
      | write =>
          cases h
          exact progress_next _ m.calls.current.stack
      | push =>
          cases h
          exact progress_next m.memory _
      | pop =>
          cases h
          exact progress_next _ _

/-- What moves forward leaves less work. -/
theorem work_lt_of_progress (ht : m.functions.Descends)
    (hi : m.functions.instruction? m.pc = some i) (h : Progress i m m') : m'.work < m.work := by
  have hnext := ht.work_succ_lt hi
  cases h with
  | @move memory stack address hpc =>
      have hle : m.pc.address + 1 ≤ address := by
        rcases hpc with rfl | ⟨hop, rfl⟩
        · exact Nat.le_refl _
        · exact ht.jump _ i hi hop
      have hlater := m.functions.work_anti m.pc.function hle
      refine Nat.add_lt_add_of_lt_of_le (Nat.lt_of_le_of_lt hlater hnext) (Nat.le_of_eq ?_)
      exact congrArg (fun points => (points.map m.functions.work).sum)
        (returnPoints_withStack m.calls.current stack m.calls.callers)
  | @call args rest hop =>
      have hwork := ht.work_of_instruction hi
      rw [if_pos hop] at hwork
      simp only [work, called, returnPoints, returnPoints_withStack, List.map_cons, List.sum_cons]
      omega
  | @leave results caller callers hc =>
      simp only [work, returned, hc, returnPoints, returnPoints_withStack, List.map_cons,
        List.sum_cons]
      omega

/-- **Every tick lowers the work** of descending functions. -/
theorem work_lt_of_tick (ht : m.functions.Descends) {flow : Flow} (h : tick m = (.ok flow, m'))
    (hflow : flow ≠ .halt) : m'.work < m.work := by
  obtain ⟨i, hi, hprogress⟩ := progress_of_tick h hflow
  exact work_lt_of_progress ht hi hprogress

/-! ### Runs -/

/-- A run that is over is not changed by more ticks. -/
theorem interpret_add {n : Nat} (h : (interpret n m).1 ≠ .outOfFuel) (k : Nat) :
    interpret (n + k) m = interpret n m := by
  induction n generalizing m with
  | zero => exact absurd rfl h
  | succ n ih =>
      rw [Nat.succ_add]
      rcases htick : tick m with ⟨e | flow, m'⟩
      · simp only [interpret, htick]
      · by_cases hflow : flow = .halt
        · simp only [interpret, htick, hflow]
        · rw [interpret_of_tick htick hflow] at h ⊢
          rw [interpret_of_tick htick hflow]
          exact ih h

/-- **As many ticks as there is work, and one, suffice.** -/
theorem interpret_of_work_lt (ht : m.functions.Descends) {n : Nat} (h : m.work < n) :
    (interpret n m).1 ≠ .outOfFuel := by
  induction n generalizing m with
  | zero => exact absurd h (Nat.not_lt_zero _)
  | succ n ih =>
      rcases htick : tick m with ⟨e | flow, m'⟩
      · simp [interpret, htick]
      · by_cases hflow : flow = .halt
        · simp [interpret, htick, hflow]
        · have hfunctions : m'.functions = m.functions := by
            have hturn := (turn_tick m).functions_eq
            rwa [htick] at hturn
          have hless := work_lt_of_tick ht htick hflow
          rw [interpret_of_tick htick hflow]
          exact ih (hfunctions ▸ ht) (by omega)

/-- **Code without loops halts.**  If jumps go forward and calls go to functions with smaller ids,
then a run of any function over any memory finishes or fails.  It needs no more ticks than the
function has work, and one, and more ticks change nothing. -/
theorem run_descending (ht : m.functions.Descends) (start : Nat) :
    ∃ result m', (result = .finished ∨ ∃ e, result = .failed e) ∧
      ∀ n, m.functions.work ⟨start, 0⟩ < n → run n start m = (result, m') := by
  let least := m.functions.work ⟨start, 0⟩ + 1
  have hover : (run least start m).1 ≠ .outOfFuel :=
    interpret_of_work_lt (m := m.enter start) ht (Nat.lt_succ_self _)
  refine ⟨(run least start m).1, (run least start m).2, ?_, fun n hn => ?_⟩
  · cases hresult : (run least start m).1 with
    | finished => exact .inl rfl
    | failed e => exact .inr ⟨e, rfl⟩
    | outOfFuel => exact absurd hresult hover
  · obtain ⟨k, rfl⟩ := Nat.exists_eq_add_of_le hn
    exact interpret_add hover k

/-- A function that branches over one of its two calls of another, which calls a third. -/
def descending : Machine :=
  { initial with functions := { slots := [some #[{ op := .leav }],
      some #[{ op := .call, a := 0 }, { op := .leav }],
      some #[{ op := .call, a := 1 }, { op := .jmpf, a := 3 }, { op := .call, a := 1 }, .halt]] } }

/-- The functions descend, so the run is over at some time, and it has finished then. -/
theorem run_descending_calls : descending.functions.Descends ∧
    ∃ m', ∀ n, descending.functions.work ⟨2, 0⟩ < n → run n 2 descending = (.finished, m') := by
  have hdescends : descending.functions.Descends := by
    constructor
    · rintro ⟨_ | _ | _ | f, _ | _ | _ | _ | a⟩ i hi hop <;> cases hi <;> revert hop <;> decide
    · rintro ⟨_ | _ | _ | f, _ | _ | _ | _ | a⟩ i hi hop <;> cases hi <;> revert hop <;> decide
  obtain ⟨result, m', -, hrun⟩ := run_descending hdescends 2
  have hfinished : (run 6 2 descending).1 = .finished := rfl
  have hover : (run 6 2 descending).1 ≠ .outOfFuel := by simp [hfinished]
  have hlate := hrun (6 + (descending.functions.work ⟨2, 0⟩ + 1)) (by omega)
  have hsame : run 6 2 descending = (result, m') := (interpret_add hover _).symm.trans hlate
  obtain rfl : result = .finished := by rw [← hfinished, hsame]
  exact ⟨hdescends, m', hrun⟩

end Machine

end ScriptLang
