import ScriptLang.Diagnostic
import ScriptLang.Memory

/-!
# Runtime errors

Why a run stops.  An error of an instruction points at the instruction's source position; a missing
function or address has none.
-/

namespace ScriptLang

/-- Why an instruction could not be executed. -/
inductive RuntimeError where
  | nonNumericOperand (pos : Position)
  | divideByZero (pos : Position)
  /-- The operand stack holds too few values. -/
  | stackUnderflow (pos : Position)
  | memory (error : MemoryError) (pos : Position)
  | functionNotFound (function : Nat)
  /-- The code of a function ends before the address. -/
  | addressOutOfRange (function address : Nat)
  deriving DecidableEq, Repr

namespace RuntimeError

/-- An error in words. -/
def message : RuntimeError → String
  | nonNumericOperand _ => "Attempt to perform arithmetic on non-numbers"
  | divideByZero _ => "Attempt to divide with 0"
  | stackUnderflow _ => "Call stack underflow"
  | memory e _ => e.message
  | functionNotFound f => "Function " ++ toString f ++ " does not exist"
  | addressOutOfRange f a =>
    "Address " ++ toString a ++ " is past the end of function " ++ toString f

/-- Where an error points. -/
def location : RuntimeError → Location
  | nonNumericOperand pos => .at pos
  | divideByZero pos => .at pos
  | stackUnderflow pos => .at pos
  | memory _ pos => .at pos
  | functionNotFound _ => .compiler
  | addressOutOfRange _ _ => .compiler

instance : Located RuntimeError where
  message := message
  location := location

end RuntimeError

end ScriptLang
