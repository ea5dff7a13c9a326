import ScriptLang.Generator
import ScriptLang.Proofs.Machine.Confinement

/-!
# Code from the generator

A generator is built by emitting instructions and patching their targets.  The addresses it gives
out on the way are those of its instructions and that of the one to come, so a jump to such an
address goes to an instruction or to the end (`Built.le_here`).  At the end there is an instruction
if finishing adds one.

* **Finished code** (`run_finish`) ends the run of its function.  Its jumps stay inside, and no run
  leaves it, unless a jump goes to the end of code that already ends.
* `finish_past_end`: such a jump does leave it.
-/

namespace ScriptLang.Generator

variable {given : List Nat} {g : Generator}

/-- The generators that emitting and patching make of a new one, with the addresses given out on the
way.  A patch that fails changes nothing. -/
inductive Built : List Nat → Generator → Prop where
  | initial : Built [] initial
  | emit {given : List Nat} {g : Generator} (i : Instruction) (h : Built given g) :
      Built ((g.emit i).1 :: given) (g.emit i).2
  | here {given : List Nat} {g : Generator} (h : Built given g) : Built (g.here :: given) g
  | patch {given : List Nat} {g g' : Generator} (address target : Nat) (h : Built given g)
      (hp : g.patch address target = .ok g') : Built given g'

/-- A jump to the end of code that finishing adds nothing to. -/
def JumpsPastEnd (g : Generator) : Prop :=
  isTerminated g.code ∧ ∃ i ∈ g.code, i.op.isJump ∧ i.a = g.here

/-! ### Addresses -/

theorem here_patch {g' : Generator} {address target : Nat}
    (hp : g.patch address target = .ok g') : g'.here = g.here := by
  unfold patch at hp
  split at hp
  · cases hp
    simp [here]
  · cases hp

/-- The addresses given out are those of the instructions and of the one to come. -/
theorem Built.le_here (h : Built given g) : ∀ a ∈ given, a ≤ g.here := by
  induction h with
  | initial => simp
  | @emit given g i _ ih =>
      have hhere : (g.emit i).2.here = g.here + 1 := by simp [Generator.emit, Generator.here]
      intro a ha
      rw [hhere]
      rcases List.mem_cons.mp ha with rfl | ha
      · exact Nat.le_succ _
      · exact Nat.le_succ_of_le (ih a ha)
  | @here given g _ ih =>
      intro a ha
      rcases List.mem_cons.mp ha with rfl | ha
      · exact Nat.le_refl _
      · exact ih a ha
  | patch _ _ _ hp ih => rw [here_patch hp]; exact ih

/-! ### Finishing -/

theorem isTerminated_iff {code : Code} : isTerminated code ↔
    ∃ i, code.back? = some i ∧ (i.op = .halt ∨ i.op = .leav) := by
  unfold isTerminated
  cases code.back? <;> simp

/-- Finished code ends in a halt or a return. -/
theorem isTerminated_finish (g : Generator) : isTerminated g.finish := by
  unfold finish
  split
  next h => exact h
  next => simp [isTerminated, Instruction.halt]

/-- The jumps of finished code are those that were emitted. -/
theorem mem_of_mem_finish {i : Instruction} (hi : i ∈ g.finish) (hop : i.op.isJump) :
    i ∈ g.code := by
  unfold finish at hi
  split at hi
  · exact hi
  · rcases Array.mem_push.mp hi with hi | rfl
    · exact hi
    · cases hop

/-- Finishing adds one instruction at most. -/
theorem size_finish (g : Generator) :
    g.finish.size = if isTerminated g.code then g.here else g.here + 1 := by
  unfold finish here
  split <;> simp

/-- Finished code is confined if its jumps go to addresses given out and not past the end. -/
theorem confined_finish (hg : Built given g) (hj : ∀ i ∈ g.code, i.op.isJump → i.a ∈ given)
    (hend : ¬ g.JumpsPastEnd) : g.finish.Confined := by
  constructor
  · obtain ⟨i, hi, hop⟩ := isTerminated_iff.mp (isTerminated_finish g)
    exact ⟨i, hi, by rcases hop with hop | hop <;> rw [hop] <;> rfl⟩
  · intro i hi hop
    have hmem := mem_of_mem_finish hi hop
    have hle := hg.le_here i.a (hj i hmem hop)
    rw [size_finish]
    split
    next hterm => exact Nat.lt_of_le_of_ne hle fun heq => hend ⟨hterm, i, hmem, hop, heq⟩
    next => exact Nat.lt_succ_of_le hle

/-- **Finished code.**  It ends in a halt or a return.  If its jumps go to addresses that the
generator gave out, and none to the end of code that already ends, then they all go to instructions
of it and no run of any machine that has it leaves it. -/
theorem run_finish (hg : Built given g) (hj : ∀ i ∈ g.code, i.op.isJump → i.a ∈ given) :
    (∃ i, g.finish.back? = some i ∧ (i.op = .halt ∨ i.op = .leav)) ∧
      (¬ g.JumpsPastEnd →
        (∀ i ∈ g.finish, i.op.isJump → i.a < g.finish.size) ∧
        ∀ (m : Machine) (f : Nat), m.functions.get? f = some g.finish →
          ∀ n start a, (Machine.run n start m).1 ≠ .failed (.addressOutOfRange f a)) := by
  refine ⟨isTerminated_iff.mp (isTerminated_finish g), fun hend => ?_⟩
  have hconfined := confined_finish hg hj hend
  exact ⟨hconfined.jumps, fun m f hf => Machine.run_ne_addressOutOfRange hf hconfined⟩

/-- A branch over one instruction, patched to the end: finishing adds the halt it goes to. -/
theorem run_finish_branch : ∃ given g, Built given g ∧ g.finish =
    #[{ op := .jmpf, a := 2, b := 1 }, { op := .mov, a := 2, b := 3 }, .halt] ∧
      ∀ (m : Machine) (f : Nat), m.functions.get? f = some g.finish →
        ∀ n start a, (Machine.run n start m).1 ≠ .failed (.addressOutOfRange f a) := by
  have hemitted := (Built.initial.emit { op := .jmpf, b := 1 }).emit { op := .mov, a := 2, b := 3 }
  have hbuilt := hemitted.here.patch 0 2 rfl
  have hfinish := run_finish hbuilt (by decide)
  exact ⟨_, _, hbuilt, rfl, (hfinish.2 (fun h => by cases h.1)).2⟩

/-- A jump over a halt, patched to the end: finishing adds nothing, and the jump leaves the code. -/
theorem finish_past_end : ∃ given g, Built given g ∧ g.code = #[{ op := .jmp, a := 2 }, .halt] ∧
    (∀ i ∈ g.code, i.op.isJump → i.a ∈ given) ∧
      ¬ (∀ i ∈ g.finish, i.op.isJump → i.a < g.finish.size) ∧
      (Machine.run 2 0 (Machine.initial.addFunction g.finish).2).1 =
        .failed (.addressOutOfRange 0 2) := by
  have hbuilt := ((Built.initial.emit { op := .jmp }).emit .halt).here.patch 0 2 rfl
  exact ⟨_, _, hbuilt, rfl, by decide, by decide, rfl⟩

end ScriptLang.Generator
