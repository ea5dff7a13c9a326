/-!
# Padded text

A padded text is cut to a precision, if one is given, and then filled up to a width.  Both count
characters.  A text at least as wide as the width is not changed by filling.
-/

namespace ScriptLang

/-- Where a text stands in its field. -/
inductive Alignment where
  | left
  | right
  /-- In the middle; the odd fill character goes to the right. -/
  | center
  deriving DecidableEq, Repr

/-- How a text is padded. -/
structure Padding where
  fill : Char := ' '
  align : Alignment := .left
  width : Nat := 0
  precision : Option Nat := none

/-- The text padded. -/
def Padding.apply (p : Padding) (s : String) : String :=
  let body := match p.precision with
    | some n => s.toList.take n
    | none => s.toList
  let missing := p.width - body.length
  let before := match p.align with
    | .left => 0
    | .right => missing
    | .center => missing / 2
  String.ofList (List.replicate before p.fill ++ body ++ List.replicate (missing - before) p.fill)

/-- The text filled up with blanks on the right. -/
def padRight (width : Nat) (s : String) : String := { width := width : Padding }.apply s

end ScriptLang
