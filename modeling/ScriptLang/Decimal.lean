/-!
# Decimals

A decimal is `digits · 10 ^ exponent`.  `Decimal.positional` writes it with a point and never with
an exponent.
-/

namespace ScriptLang

/-- The number `digits · 10 ^ exponent`. -/
structure Decimal where
  digits : Nat
  exponent : Int
  deriving DecidableEq, Repr

namespace Decimal

/-- So many zeros. -/
def zeros (n : Nat) : List Char := List.replicate n '0'

/-- The decimal written out with a point: none if it is whole, and with a zero before the point if
nothing else stands there. -/
def positional (d : Decimal) : String :=
  let digits := (toString d.digits).toList
  match d.exponent with
  | .ofNat n => String.ofList (digits ++ zeros n)
  | .negSucc n =>
    let places := n + 1
    let digits := zeros (places + 1 - digits.length) ++ digits
    let whole := digits.length - places
    String.ofList (digits.take whole ++ ['.'] ++ digits.drop whole)

end Decimal

end ScriptLang
