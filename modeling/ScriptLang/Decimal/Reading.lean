import ScriptLang.Decimal
import ScriptLang.Text
import ScriptLang.Text.Byte

/-!
# Reading decimals

A decimal is written as digits with at most one point among, before or after them, and an optional
exponent: `e` or `E`, an optional sign and digits.  At least one digit has to stand before the
exponent, and one in it.  `Decimal.toBits` is the nearest double, as its bit pattern.
-/

namespace ScriptLang.Decimal

/-- The number that digits write. -/
def ofDigits (ds : Text) : Nat := ds.foldl (fun n d => 10 * n + (d.toNat - 48)) 0

/-- An exponent after its letter: an optional sign and digits to the end. -/
def readExponent? (t : Text) : Option Int :=
  let (negative, ds) : Bool × Text :=
    match t with
    | 45 :: ds => (true, ds)
    | 43 :: ds => (false, ds)
    | ds => (false, ds)
  if ds.isEmpty || !ds.all isDigit then none
  else some (if negative then -(ofDigits ds : Int) else ofDigits ds)

/-- What may follow the digits of a decimal: nothing, or a letter and an exponent. -/
def readTail? : Text → Option Int
  | [] => some 0
  | b :: t => if b == 101 || b == 69 then readExponent? t else none

/-- The decimal a text writes. -/
def read? (t : Text) : Option Decimal :=
  let whole := t.takeWhile isDigit
  let rest := t.dropWhile isDigit
  let (places, tail) : Text × Text :=
    match rest with
    | b :: r => if isPoint b then (r.takeWhile isDigit, r.dropWhile isDigit) else ([], rest)
    | [] => ([], [])
  if whole.isEmpty && places.isEmpty then none
  else (readTail? tail).map fun e =>
    { digits := ofDigits (whole ++ places), exponent := e - places.length }

/-- An exponent past which every decimal of so many digits is zero or infinite. -/
def clampExponent (digits : Nat) (e : Int) : Int :=
  max (-(400 + (toString digits).length : Int)) (min 400 e)

/-- The bit pattern of the double nearest to a decimal. -/
def toBits (d : Decimal) : UInt64 :=
  match clampExponent d.digits d.exponent with
  | .ofNat n => (Float.ofScientific d.digits false n).toBits
  | .negSucc n => (Float.ofScientific d.digits true (n + 1)).toBits

end ScriptLang.Decimal
