import Mathlib.Algebra.Group.Nat.Defs
import ScriptLang.Proofs.Memory

/-!
# Histories of memory

Memory is written through two views: as cells, and as locals, which are the cells behind the
registers.  A `Write` is a write through either, to the cell `Write.target`, and it succeeds just if
that cell is below the capacity (`Write.run_eq`).  Addition does not wrap around, so a local whose
cell no machine word can name is refused like any other that is too far.

* `get_after`: after a history of writes a cell reads as the last that succeeded on it.
* `size_after`: memory reaches just to the last cell that a write succeeded on.
* **Memory is a map** (`reads_after`).  All of this, for every history of a new memory.
-/

namespace ScriptLang.Memory

/-- A write of a cell or of a local. -/
inductive Write where
  | cell (index : Nat) (value : Value)
  | slot (index : Nat) (value : Value)
  deriving DecidableEq, Repr

namespace Write

/-- The value that is written. -/
def value : Write → Value
  | cell _ v | slot _ v => v

/-- The cell that is written. -/
def target : Write → Nat
  | cell i _ => i
  | slot j _ => registerCount + j

/-- Whether the cell is below the capacity. -/
def fits (w : Write) : Bool := w.target < memoryCapacity

/-- The error of a write past the capacity, which names what was asked for. -/
def error : Write → MemoryError
  | cell i _ => .cellOutOfRange i
  | slot j _ => .localOutOfRange j

/-- Writes a cell or a local. -/
def run : Write → Attempt Memory MemoryError Unit
  | cell i v => set i v
  | slot j v => setLocal j v

/-- **One write** changes the cell below the capacity that it is to, or fails and changes
nothing. -/
theorem run_eq (w : Write) (m : Memory) :
    w.run m = if w.fits then (.ok (), m.put w.target w.value) else (.error w.error, m) := by
  by_cases h : w.target < memoryCapacity
  · have hfits : w.fits := decide_eq_true h
    rw [if_pos hfits]
    cases w <;> exact if_pos h
  · have hfits : ¬ w.fits := by simpa [fits] using h
    rw [if_neg hfits]
    cases w <;> exact if_neg h

theorem run_of_fits {w : Write} (h : w.fits) (m : Memory) :
    w.run m = (.ok (), m.put w.target w.value) := by
  rw [run_eq, if_pos h]

theorem run_of_not_fits {w : Write} (h : ¬ w.fits) (m : Memory) :
    w.run m = (.error w.error, m) := by
  rw [run_eq, if_neg h]

end Write

/-- Memory after a history of writes, each of which may have failed. -/
def after (m : Memory) (writes : List Write) : Memory := writes.foldl (fun m w => (w.run m).2) m

/-- The last write of a history that succeeded on a cell. -/
def lastWrite? (writes : List Write) (i : Nat) : Option Write :=
  writes.reverse.find? fun w => w.fits && w.target == i

/-- The end of memory after a history: past every cell that a write succeeded on. -/
def reach (start : Nat) (writes : List Write) : Nat :=
  (writes.filter Write.fits).foldl (fun n w => max n (w.target + 1)) start

variable {m : Memory} {i : Nat}

/-! ### Cells -/

/-- A later write hides an earlier one. -/
theorem lastWrite?_cons (w : Write) (writes : List Write) (i : Nat) :
    lastWrite? (w :: writes) i =
      (lastWrite? writes i).or (if w.fits ∧ w.target = i then some w else none) := by
  unfold lastWrite?
  rw [List.reverse_cons, List.find?_append, List.find?_singleton]
  simp only [Bool.and_eq_true, beq_iff_eq]

/-- **The last write wins.** -/
theorem get_after (m : Memory) (writes : List Write) (i : Nat) :
    (m.after writes).get i = ((lastWrite? writes i).map Write.value).getD (m.get i) := by
  induction writes generalizing m with
  | nil => rfl
  | cons w writes ih =>
      have hstep : ((w.run m).2).get i =
          ((if w.fits ∧ w.target = i then some w else none).map Write.value).getD (m.get i) := by
        by_cases hw : w.fits
        · rw [w.run_of_fits hw, get_put]
          by_cases hi : w.target = i
          · simp [hw, hi]
          · simp [hi, Ne.symm hi]
        · simp [w.run_of_not_fits hw, hw]
      change (after (w.run m).2 writes).get i = _
      rw [ih, hstep, lastWrite?_cons]
      -- A later write to the cell hides this one.
      cases lastWrite? writes i <;> rfl

/-! ### The end of memory -/

theorem size_put (m : Memory) (i : Nat) (v : Value) : (m.put i v).size = max m.size (i + 1) := by
  unfold put size
  split
  · simp only [Array.size_setIfInBounds]
    omega
  · simp only [Array.size_push, Array.size_rightpad]
    omega

/-- Memory is as long as the history reaches. -/
theorem size_after (m : Memory) (writes : List Write) :
    (m.after writes).size = reach m.size writes := by
  induction writes generalizing m with
  | nil => rfl
  | cons w writes ih =>
      change (after (w.run m).2 writes).size = _
      rw [ih]
      by_cases hw : w.fits
      · simp [w.run_of_fits hw, size_put, reach, hw]
      · simp [w.run_of_not_fits hw, reach, hw]

/-- No write makes memory shorter or takes it past the capacity. -/
theorem reach_bounds (writes : List Write) {start : Nat} (h : start ≤ memoryCapacity) :
    start ≤ reach start writes ∧ reach start writes ≤ memoryCapacity := by
  induction writes generalizing start with
  | nil => exact ⟨Nat.le_refl _, h⟩
  | cons w writes ih =>
      by_cases hw : w.fits
      · have hlt : w.target < memoryCapacity := of_decide_eq_true hw
        have hmax : max start (w.target + 1) ≤ memoryCapacity := Nat.max_le.mpr ⟨h, hlt⟩
        obtain ⟨hle, hcap⟩ := ih hmax
        have hreach : reach start (w :: writes) = reach (max start (w.target + 1)) writes := by
          simp [reach, hw]
        rw [hreach]
        exact ⟨by omega, hcap⟩
      · have hreach : reach start (w :: writes) = reach start writes := by
          simp [reach, hw]
        rw [hreach]
        exact ih h

@[simp] theorem size_empty : empty.size = registerCount := by
  simp [size, empty]

/-- Memory holds the registers and stays within its capacity. -/
theorem size_after_empty (writes : List Write) :
    registerCount ≤ (empty.after writes).size ∧ (empty.after writes).size ≤ memoryCapacity := by
  rw [size_after, size_empty]
  exact reach_bounds writes (by decide)

/-- Past its end memory reads as nil. -/
theorem get_of_size_le (h : m.size ≤ i) : m.get i = .nil := by
  unfold get
  rw [Array.getElem?_eq_none h]
  rfl

/-- The registers are the first cells. -/
theorem registers_eq (h : registerCount ≤ m.size) :
    m.registers = (List.range registerCount).map m.get := by
  refine List.ext_getElem ?_ fun i hi hi' => ?_
  · have hmin : min registerCount m.cells.size = registerCount := Nat.min_eq_left h
    simp [registers, hmin]
  · have hlt : i < m.cells.size := by
      have : i < registerCount := by simpa using hi'
      exact Nat.lt_of_lt_of_le this h
    simp [registers, get, hlt]

/-! ### All histories -/

/-- **Memory is a map with a fixed bound.**  Whatever was written to a new memory:

* A write succeeds just if its cell is below the capacity, and changes nothing if it fails.
* A cell reads as what was last written to it with success, and as nil if nothing was.
* A local is the cell behind the registers, and nil where no machine word names that cell.
* Memory ends behind the last cell written, but not before the registers do, and the registers are
  all there. -/
theorem reads_after (writes : List Write) :
    let m := empty.after writes
    (∀ w : Write, ((∃ e, (w.run m).1 = .error e) ↔ memoryCapacity ≤ w.target) ∧
      ∀ e m', w.run m = (.error e, m') → e = w.error ∧ m' = m) ∧
    (∀ i, m.get i = ((lastWrite? writes i).map Write.value).getD .nil) ∧
    (∀ j, m.getLocal j = m.get (registerCount + j)) ∧
    (∀ j, 2 ^ 64 ≤ registerCount + j → m.getLocal j = .nil) ∧
    m.size = reach registerCount writes ∧
    registerCount ≤ m.size ∧ m.size ≤ memoryCapacity ∧
    m.registers = (List.range registerCount).map m.get ∧
    m.localCount + registerCount = m.size := by
  intro m
  obtain ⟨hle, hcap⟩ := size_after_empty writes
  refine ⟨fun w => ?_, fun i => ?_, fun _ => rfl, fun j hj => ?_, ?_, hle, hcap, registers_eq hle,
    Nat.sub_add_cancel hle⟩
  · by_cases hw : w.fits
    · have hlt : w.target < memoryCapacity := of_decide_eq_true hw
      simp [w.run_of_fits hw, hlt]
    · have hge : memoryCapacity ≤ w.target := by simpa [Write.fits] using hw
      rw [w.run_of_not_fits hw]
      refine ⟨⟨fun _ => hge, fun _ => ⟨_, rfl⟩⟩, ?_⟩
      rintro _ _ ⟨⟩
      exact ⟨rfl, rfl⟩
  · rw [get_after, get_empty]
  · have hfar : memoryCapacity ≤ registerCount + j := Nat.le_trans (by decide) hj
    exact get_of_size_le (Nat.le_trans hcap hfar)
  · rw [size_after, size_empty]

/-- A cell in the gap before a local that was written is nil. -/
example :
    (empty.after [.slot 2 (.bool true), .cell (2 ^ 24) .nil, .cell 10 .nil]).get 9 = .nil := by
  decide

end ScriptLang.Memory
