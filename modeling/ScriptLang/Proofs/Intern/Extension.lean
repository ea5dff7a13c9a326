import Mathlib.Algebra.BigOperators.Fin
import Mathlib.Data.Nat.ModEq
import Mathlib.Tactic.Ring
import ScriptLang.Proofs.Intern.Hash

/-!
# Collisions extend

Modulo 2³² the hash of a text is a number to base 33: its digits are the bytes of the text, behind
the seed.  So a hash that goes on behind another one depends on that one and on the bytes alone
(`foldl_hashStep_modEq`), and what texts have before or behind them hides no collision and makes
none.

* `djb2_modEq`: the hash as a number to base 33.
* `foldl_hashStep_eq_iff`: texts of one length collide behind one hash just if they do behind any.
* **Collisions extend** (`djb2_extends`), to all texts that go on alike and, for texts of one
  length, to all that begin alike.
-/

namespace ScriptLang.Intern

/-- The number to base 33 with the bytes of a text as digits. -/
def base33 (t : Text) : Nat := ∑ i : Fin t.length, t[i].toNat * 33 ^ (t.length - (i + 1))

theorem base33_nil : base33 [] = 0 := rfl

theorem base33_cons (b : UInt8) (t : Text) :
    base33 (b :: t) = b.toNat * 33 ^ t.length + base33 t := by
  have hsum := Fin.sum_univ_succ fun i : Fin (t.length + 1) =>
    (b :: t)[i].toNat * 33 ^ (t.length + 1 - (i + 1))
  simpa [base33] using hsum

/-- One more byte, without a bound. -/
theorem hashStep_modEq (h : UInt32) (b : UInt8) :
    (hashStep h b).toNat ≡ h.toNat * 33 + b.toNat [MOD 2 ^ 32] := by
  have htoNat : (hashStep h b).toNat = (33 * h.toNat % 2 ^ 32 + b.toNat) % 2 ^ 32 := by
    rw [hashStep_eq, UInt32.toNat_add, UInt32.toNat_mul, UInt8.toNat_toUInt32]
    rfl
  rw [htoNat, Nat.mul_comm]
  exact (Nat.mod_modEq _ _).trans ((Nat.mod_modEq _ _).add_right _)

/-- **A hash that goes on** behind another one. -/
theorem foldl_hashStep_modEq (h : UInt32) (t : Text) :
    (t.foldl hashStep h).toNat ≡ h.toNat * 33 ^ t.length + base33 t [MOD 2 ^ 32] := by
  induction t generalizing h with
  | nil =>
      rw [base33_nil, List.length_nil, Nat.pow_zero, Nat.mul_one]
      exact .rfl
  | cons b t ih =>
      have hstep := ((hashStep_modEq h b).mul_right (33 ^ t.length)).add_right (base33 t)
      have hdigits : (h.toNat * 33 + b.toNat) * 33 ^ t.length + base33 t =
          h.toNat * 33 ^ (b :: t).length + base33 (b :: t) := by
        rw [base33_cons, List.length_cons]
        ring
      rw [hdigits] at hstep
      exact (ih (hashStep h b)).trans hstep

/-- The hash as a number to base 33. -/
theorem djb2_modEq (t : Text) :
    (djb2 t).toNat ≡ 5381 * 33 ^ t.length + base33 t [MOD 2 ^ 32] :=
  foldl_hashStep_modEq hashSeed t

/-- Hashes are equal just if they are congruent modulo 2³². -/
theorem eq_iff_modEq (h h' : UInt32) : h = h' ↔ h.toNat ≡ h'.toNat [MOD 2 ^ 32] := by
  rw [← UInt32.toNat_inj, Nat.ModEq, Nat.mod_eq_of_lt h.toNat_lt, Nat.mod_eq_of_lt h'.toNat_lt]

/-- Texts of one length collide behind a hash just if they are the same number to base 33, so just
if they collide behind any other. -/
theorem foldl_hashStep_eq_iff {a b : Text} (hlength : a.length = b.length) (h : UInt32) :
    a.foldl hashStep h = b.foldl hashStep h ↔ base33 a ≡ base33 b [MOD 2 ^ 32] := by
  have ha := foldl_hashStep_modEq h a
  have hb := foldl_hashStep_modEq h b
  rw [hlength] at ha
  rw [eq_iff_modEq]
  constructor
  · intro heq
    exact ((ha.symm.trans heq).trans hb).add_left_cancel'
  · intro heq
    exact (ha.trans (heq.add_left _)).trans hb.symm

/-- **Collisions extend.**  The hash of a text is a number to base 33, modulo 2³², with the seed
5381 before the bytes of the text.

* Texts with one hash go on having one hash, whatever text they both go on with, and a table that
  compares hashes gives them one handle, whatever is interned before them and between them.
* Texts of one length have one hash just if they have one behind any text. -/
theorem djb2_extends :
    (∀ t : Text, (djb2 t).toNat = (5381 * 33 ^ t.length +
      ∑ i : Fin t.length, t[i].toNat * 33 ^ (t.length - (i + 1))) % 2 ^ 32) ∧
    (∀ a b : Text, djb2 a = djb2 b → ∀ c, djb2 (a ++ c) = djb2 (b ++ c) ∧
      ∀ before between, Table.handleAfter .hashOnly before (a ++ c) =
        Table.handleAfter .hashOnly (before ++ (a ++ c) :: between) (b ++ c)) ∧
    ∀ a b : Text, a.length = b.length → ∀ p : Text,
      djb2 (p ++ a) = djb2 (p ++ b) ↔ djb2 a = djb2 b := by
  refine ⟨fun t => ?_, fun a b heq c => ?_, fun a b hlength p => ?_⟩
  · have hmod := djb2_modEq t
    rw [Nat.ModEq, Nat.mod_eq_of_lt (djb2 t).toNat_lt] at hmod
    exact hmod
  · have hextended : djb2 (a ++ c) = djb2 (b ++ c) := by
      rw [djb2_append, djb2_append, heq]
    refine ⟨hextended, fun before between => ?_⟩
    exact (Table.handleAfter_eq_iff .hashOnly before between (a ++ c) (b ++ c)).mpr hextended
  · rw [djb2_append, djb2_append, foldl_hashStep_eq_iff hlength (djb2 p)]
    exact (foldl_hashStep_eq_iff hlength hashSeed).symm

/-- `stylist` and `subgenera` share a hash, and so do `Az` and `BY`. -/
theorem djb2_extends_plural :
    let stylist := Text.ofString "stylist"
    let subgenera := Text.ofString "subgenera"
    let s := Text.ofString "s"
    let az := Text.ofString "Az"
    let bY := Text.ofString "BY"
    (djb2 stylist = djb2 subgenera ∧ djb2 (stylist ++ s) = djb2 (subgenera ++ s)) ∧
      az.length = bY.length ∧ (djb2 (s ++ az) = djb2 (s ++ bY) ↔ djb2 az = djb2 bY) :=
  have hshared : djb2 (Text.ofString "stylist") = djb2 (Text.ofString "subgenera") := by decide
  ⟨⟨hshared, (djb2_extends.2.1 _ _ hshared (Text.ofString "s")).1⟩, by decide,
    djb2_extends.2.2 _ _ (by decide) (Text.ofString "s")⟩

end ScriptLang.Intern
