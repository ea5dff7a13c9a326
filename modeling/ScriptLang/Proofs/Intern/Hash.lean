import ScriptLang.Lexer.Scanner
import ScriptLang.Proofs.Intern.History

/-!
# The hash tells strings from names

A table that compares hashes alone gives one handle to texts of one hash.  The mark of strings still
keeps a string apart from the name with its letters.  One more byte multiplies the hash by 33, which
is invertible modulo 2³², so hashes that differ go on differing behind them, whatever bytes follow
(`foldl_hashStep_inj`).  The mark makes them differ before the first byte.

* `djb2_marked_ne`: a text with the mark has another hash than without it.
* `Table.index_handleAfter_le`: a handle has 32 bits while the table has fewer than 2³² entries.
* **Strings and names** (`Table.handles_marked`).  A text with the mark and the text without it get
  different handles, under either policy.
-/

namespace ScriptLang.Intern

/-! ### Hashes that differ -/

/-- A shift and an addition multiply by 33. -/
theorem hashStep_eq (h : UInt32) (b : UInt8) : hashStep h b = 33 * h + b.toUInt32 := by
  have hshift : h <<< 5 = 32 * h := by
    apply UInt32.toNat_inj.mp
    simp only [UInt32.toNat_shiftLeft, UInt32.toNat_mul, UInt32.reduceToNat, Nat.shiftLeft_eq,
      Nat.reduceMod, Nat.reducePow, Nat.mul_comm h.toNat]
  rw [hashStep, hshift]
  grind

/-- **A step of the hash is injective** in the hash before it: 33 is odd, so it can be divided by
modulo 2³². -/
theorem hashStep_inj {h h' : UInt32} {b : UInt8} (heq : hashStep h b = hashStep h' b) : h = h' := by
  rw [hashStep_eq, hashStep_eq, UInt32.add_left_inj] at heq
  -- The inverse of 33.
  have hinverse : ∀ k : UInt32, 1041204193 * (33 * k) = k := by grind
  rw [← hinverse h, heq, hinverse h']

/-- **Hashes go on differing**, whatever bytes follow. -/
theorem foldl_hashStep_inj {h h' : UInt32} (t : Text)
    (heq : t.foldl hashStep h = t.foldl hashStep h') : h = h' := by
  induction t generalizing h h' with
  | nil => exact heq
  | cons b t ih => exact hashStep_inj (ih heq)

/-- The mark changes the hash that the rest of the text goes on from, and no step loses the
difference. -/
theorem djb2_marked_ne (t : Text) : djb2 (stringMark :: t) ≠ djb2 t := by
  intro heq
  have hseed : hashStep hashSeed stringMark = hashSeed := foldl_hashStep_inj t heq
  exact absurd hseed (by decide)

/-! ### Handles that differ -/

namespace Table

/-- A handle is at most the number of entries before the call. -/
theorem index_handleAfter_le (policy : Policy) (history : List Text) (text : Text) :
    (handleAfter policy history text).index ≤ ((empty policy).internAll history).size := by
  unfold handleAfter
  rcases intern_cases (records_internAll policy history).hashed text with
    ⟨i, e, he, -, heq⟩ | ⟨-, heq⟩
  · rw [heq]
    exact Nat.le_of_lt (List.getElem?_eq_some_iff.mp he).1
  · exact Nat.le_of_eq (by rw [heq])

theorem size_internAll_le (t : Table) (texts : List Text) : t.size ≤ (t.internAll texts).size :=
  (t.growsTo_internAll texts).2.length_le

/-- The handles of `a`, interned after some texts, and of `b`, interned after `a` and some more, are
different, and different as 32-bit numbers while the table has fewer than 2³² entries. -/
def Differ (policy : Policy) (before : List Text) (a : Text) (between : List Text) (b : Text) :
    Prop :=
  let s := handleAfter policy before a
  let r := handleAfter policy (before ++ a :: between) b
  s ≠ r ∧ (((empty policy).internAll (before ++ a :: between)).size < UInt32.size →
    UInt32.ofNat s.index ≠ UInt32.ofNat r.index)

/-- Texts that do not agree get different handles, whatever is interned before them and between
them. -/
theorem differ_of_not_agrees {policy : Policy} {a b : Text} (h : ¬ policy.Agrees a b)
    (before between : List Text) : Differ policy before a between b := by
  have hne := mt (handleAfter_eq_iff policy before between a b).mp h
  refine ⟨hne, fun hsize heq => hne ?_⟩
  have hgrows : ((empty policy).internAll before).size ≤
      ((empty policy).internAll (before ++ a :: between)).size := by
    rw [internAll_append]
    exact size_internAll_le _ _
  have hs := Nat.le_trans (index_handleAfter_le policy before a) hgrows
  have hr := index_handleAfter_le policy (before ++ a :: between) b
  have hindex := congrArg UInt32.toNat heq
  rw [UInt32.toNat_ofNat_of_lt' (Nat.lt_of_le_of_lt hs hsize),
    UInt32.toNat_ofNat_of_lt' (Nat.lt_of_le_of_lt hr hsize)] at hindex
  exact congrArg Symbol.mk hindex

/-- A text with the mark of strings agrees with the one without it under neither policy. -/
theorem not_agrees_marked (policy : Policy) (text : Text) :
    ¬ policy.Agrees (stringMark :: text) text := by
  cases policy with
  | hashOnly => exact djb2_marked_ne text
  | verified => exact List.cons_ne_self _ _

/-- **Strings and names.**  A text with the mark of strings has another hash than without it.  So
the two get different handles under either policy, whichever is interned first, and whatever is
interned before them and between them. -/
theorem handles_marked (policy : Policy) (text : Text) (before between : List Text) :
    djb2 (stringMark :: text) ≠ djb2 text ∧
      Differ policy before text between (stringMark :: text) ∧
      Differ policy before (stringMark :: text) between text := by
  have hmarked := not_agrees_marked policy text
  refine ⟨djb2_marked_ne text, ?_, differ_of_not_agrees hmarked before between⟩
  exact differ_of_not_agrees (fun h => hmarked h.symm) before between

/-- The name `a` and the string `a` of a source that compares hashes. -/
example : handleAfter .hashOnly [] (Text.ofString "a") = ⟨0⟩ ∧
    handleAfter .hashOnly [Text.ofString "a"] (stringMark :: Text.ofString "a") = ⟨1⟩ := by
  decide

end Table

end ScriptLang.Intern
