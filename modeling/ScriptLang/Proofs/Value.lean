import Mathlib.Algebra.Ring.Nat
import Mathlib.Logic.Equiv.Defs
import ScriptLang.Value

/-!
# Loose equality

Loose equality compares the bits of values twice, as they are and as numbers, and neither
comparison would do alone: a pattern that stands for no number is not equal to itself as a number,
and the two zeros are not equal as bits.  Together they compare the bits once the two zeros are
taken as one (`Number.oneZero`), so loose equality compares images under a function.

* `Number.eq_or_equal_iff`: what the two comparisons of bits decide.
* `looseEq_iff_eq`: loose equality as equality of kinds and of bits up to the sign of zero.
* **Loose equality is an equivalence** (`looseEq_equivalence`), of which only the zeros of a kind
  are not alone in their class.
-/

namespace ScriptLang

namespace Number

/-- The bits of a number, with the two zeros as one. -/
def oneZero (x : UInt64) : UInt64 := if isZero x then 0 else x

variable {x y : UInt64}

/-- The two zeros are no bits set, and the sign alone. -/
theorem isZero_iff : isZero x ↔ x.toNat ∈ [0, 2 ^ 63] := by
  simp only [isZero, Bool.or_eq_true, beq_iff_eq, ← UInt64.toNat_inj, List.mem_cons,
    List.not_mem_nil, or_false]
  rfl

theorem isNaN_of_isZero (h : isZero x) : isNaN x = false := by
  rw [isZero, Bool.or_eq_true, beq_iff_eq, beq_iff_eq] at h
  rcases h with rfl | rfl <;> decide

/-- Taking the zeros as one identifies them and nothing else. -/
theorem oneZero_eq_iff : oneZero x = oneZero y ↔ x = y ∨ isZero x ∧ isZero y := by
  have hzero : isZero 0 := rfl
  unfold oneZero
  split <;> split <;> rename_i hx hy
  · simp [hx, hy]
  · have hne : 0 ≠ y := fun h => hy (h ▸ hzero)
    have hne' : x ≠ y := fun h => hy (h ▸ hx)
    simp [hy, hne, hne']
  · have hne : x ≠ 0 := fun h => hx (h ▸ hzero)
    have hne' : x ≠ y := fun h => hx (h ▸ hy)
    simp [hx, hne, hne']
  · simp [hx]

/-- **Bits that are the same or equal as numbers** are the same but for the sign of a zero. -/
theorem eq_or_equal_iff : (x == y || equal x y) ↔ oneZero x = oneZero y := by
  rw [oneZero_eq_iff, equal, Bool.or_eq_true, beq_iff_eq]
  constructor
  · rintro (heq | hequal)
    · exact .inl heq
    · simp only [Bool.and_eq_true, Bool.or_eq_true, beq_iff_eq] at hequal
      exact hequal.2
  · rintro (heq | ⟨hx, hy⟩)
    · exact .inl heq
    · simp [isNaN_of_isZero hx, isNaN_of_isZero hy, hx, hy]

end Number

namespace Value

/-- Loose equality is equality of kinds and of bits with one zero. -/
theorem looseEq_iff_eq {v w : Value} : v.looseEq w ↔
    (v.kind, Number.oneZero v.payload) = (w.kind, Number.oneZero w.payload) := by
  rw [looseEq, Bool.and_eq_true, beq_iff_eq, Number.eq_or_equal_iff, Prod.mk.injEq]

/-- **Loose equality is an equivalence** on all values, whatever bits they have.  Two values are
equal just if they are of one kind and have the same bits, or each has the bits of a zero. -/
theorem looseEq_equivalence :
    Equivalence (fun v w : Value => v.looseEq w = true) ∧
      ∀ v w : Value, v.looseEq w ↔ v.kind = w.kind ∧ (v.payload = w.payload ∨
        v.payload.toNat ∈ [0, 2 ^ 63] ∧ w.payload.toNat ∈ [0, 2 ^ 63]) := by
  constructor
  · have hsame : (fun v w : Value => v.looseEq w = true) =
        fun v w => (v.kind, Number.oneZero v.payload) = (w.kind, Number.oneZero w.payload) := by
      funext v w
      exact propext looseEq_iff_eq
    rw [hsame]
    exact eq_equivalence.comap fun v : Value => (v.kind, Number.oneZero v.payload)
  · intro v w
    rw [looseEq_iff_eq, Prod.mk.injEq, Number.oneZero_eq_iff, Number.isZero_iff,
      Number.isZero_iff]

end Value

end ScriptLang
