import ScriptLang.Memory

/-!
# Memory as a map

Every cell reads as the value last written to it, and as nil before that: growing to reach a cell
fills the gap with nil, which is what the cells in it read as already.

* `get_put`: a write changes the cell it names and no other.
* `set_of_lt`: a write below the capacity succeeds.
-/

namespace ScriptLang.Memory

/-- A new memory reads as nil everywhere. -/
@[simp] theorem get_empty (i : Nat) : empty.get i = .nil := by
  by_cases h : i < registerCount
  · simp [get, empty, h]
  · simp [get, empty, h]

/-- A write changes the cell it names and no other. -/
theorem get_put (m : Memory) (i j : Nat) (v : Value) :
    (m.put i v).get j = if j = i then v else m.get j := by
  unfold put get
  split
  next h =>
    by_cases hj : j = i
    · subst hj
      simp [h]
    · simp [hj, Ne.symm hj]
  next h =>
    have hs : (m.cells.rightpad i Value.nil).size = i := by
      rw [Array.size_rightpad]
      omega
    rw [Array.getElem?_push, hs]
    by_cases hj : j = i
    · simp [hj]
    · rw [if_neg hj, if_neg hj, Array.rightpad, Array.getElem?_append]
      split
      · rfl
      -- A cell in the gap is filled with nil, and past the old end it read as nil before.
      next hlt =>
        rw [Array.getElem?_eq_none (Nat.le_of_not_lt hlt), Array.getElem?_replicate]
        split <;> rfl

/-- A cell reads as what was put there last. -/
@[simp] theorem get_put_self (m : Memory) (i : Nat) (v : Value) : (m.put i v).get i = v := by
  simp [get_put]

theorem get_put_of_ne {i j : Nat} (h : j ≠ i) (m : Memory) (v : Value) :
    (m.put i v).get j = m.get j := by
  simp [get_put, h]

theorem set_of_lt {i : Nat} (h : i < memoryCapacity) (v : Value) (m : Memory) :
    set i v m = (.ok (), m.put i v) := by
  simp [set, h]

end ScriptLang.Memory
