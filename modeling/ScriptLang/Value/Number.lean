import ScriptLang.Decimal.Shortest

/-!
# Numbers as bit patterns

A number is the bit pattern of a double: a sign bit, eleven bits of exponent and 52 of significand.
Many patterns are not numbers, and which of them a result is can be seen: an operation on one that
is not a number hands it on, made quiet, the left one first, and an operation that has no result
gives `invalid`.
-/

namespace ScriptLang.Number

/-- The bit that holds the sign. -/
def signBit : UInt64 := 0x8000000000000000

/-- The pattern of infinity. -/
def infinity : UInt64 := 0x7ff0000000000000

/-- What an operation gives that has no result. -/
def invalid : UInt64 := 0xfff8000000000000

/-- The pattern without its sign. -/
def magnitude (x : UInt64) : UInt64 := x &&& 0x7fffffffffffffff

/-- Whether a pattern stands for no number. -/
def isNaN (x : UInt64) : Bool := infinity < magnitude x

/-- Whether a pattern is one of the two zeros. -/
def isZero (x : UInt64) : Bool := x == 0 || x == signBit

/-- The quiet form of a pattern that stands for no number. -/
def quiet (x : UInt64) : UInt64 := x ||| 0x0008000000000000

/-- Equality of numbers: equal patterns, or two zeros; no pattern that stands for no number equals
anything. -/
def equal (x y : UInt64) : Bool :=
  !isNaN x && !isNaN y && (x == y || (isZero x && isZero y))

/-- A binary operation on doubles, on patterns. -/
def lift (op : Float → Float → Float) (x y : UInt64) : UInt64 :=
  if isNaN x then quiet x
  else if isNaN y then quiet y
  else
    let r := (op (Float.ofBits x) (Float.ofBits y)).toBits
    if isNaN r then invalid else r

/-- The sum. -/
def add : UInt64 → UInt64 → UInt64 := lift (· + ·)

/-- The difference. -/
def sub : UInt64 → UInt64 → UInt64 := lift (· - ·)

/-- The product. -/
def mul : UInt64 → UInt64 → UInt64 := lift (· * ·)

/-- The quotient. -/
def div : UInt64 → UInt64 → UInt64 := lift (· / ·)

/-- The other sign. -/
def neg (x : UInt64) : UInt64 := x ^^^ signBit

/-- Whether `x` is less than `y`; never if one stands for no number. -/
def lt (x y : UInt64) : Bool := decide (Float.ofBits x < Float.ofBits y)

/-- Whether `x` is at most `y`; never if one stands for no number. -/
def le (x y : UInt64) : Bool := decide (Float.ofBits x ≤ Float.ofBits y)

/-- The significand and the binary exponent of a finite pattern: it is `m · 2 ^ q` up to its
sign. -/
def parts (x : UInt64) : Nat × Int :=
  let exponent : Nat := (magnitude x).toNat / Nat.pow 2 52
  let fraction : Nat := (magnitude x).toNat % Nat.pow 2 52
  if exponent = 0 then (fraction, -1074) else (Nat.pow 2 52 + fraction, (exponent : Int) - 1075)

/-- A number in words: the shortest decimal that reads back, written out with a point. -/
def render (x : UInt64) : String :=
  if isNaN x then "NaN"
  else
    let sign := if x &&& signBit == 0 then "" else "-"
    if magnitude x == infinity then sign ++ "inf"
    else
      let (m, q) := parts x
      if m = 0 then sign ++ "0" else sign ++ (Decimal.shortest m q).positional

end ScriptLang.Number
