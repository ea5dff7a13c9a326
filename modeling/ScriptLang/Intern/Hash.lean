import ScriptLang.Text

/-!
# The text hash

`djb2` folds a text into 32 bits: it starts from 5381 and, byte by byte, multiplies by 33 and adds
the byte, modulo 2³².  Different texts may share a hash (`stylist` and `subgenera` do), and the
interning table says what comes of that.

* `djb2_append`: the hash of `a ++ c` depends on `a` only through its hash.
-/

namespace ScriptLang.Intern

/-- The hash of the empty text. -/
def hashSeed : UInt32 := 5381

/-- The hash of a text one byte longer than one with hash `h`. -/
def hashStep (h : UInt32) (b : UInt8) : UInt32 := (h <<< 5) + h + b.toUInt32

/-- The 32-bit hash of a text. -/
def djb2 (t : Text) : UInt32 := t.foldl hashStep hashSeed

/-- Hashing goes on from the hash of what stands before. -/
theorem djb2_append (a c : Text) : djb2 (a ++ c) = c.foldl hashStep (djb2 a) := by
  simp [djb2]

end ScriptLang.Intern
