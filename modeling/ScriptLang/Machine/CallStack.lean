import ScriptLang.Value

/-!
# Frames and the call stack

Every running call has a frame with an operand stack of its own.  The frame remembers the call
instruction it came from and the entry point it went to.  Operand stacks are lists with the top
first, so that the top values of one stack can be moved onto another as they stand.

The call stack always has a current frame; the entry frame, at the bottom, is never popped.
-/

namespace ScriptLang

/-- A place in the code: a function and an address in it. -/
structure CodePoint where
  function : Nat
  address : Nat
  deriving DecidableEq, Repr, Inhabited

/-- A running call. -/
structure Frame where
  /-- The call instruction. -/
  source : CodePoint
  /-- The entry point of the called function. -/
  target : CodePoint
  /-- The operands, top first. -/
  stack : List Value
  deriving DecidableEq, Repr

namespace Frame

/-- The frame of a program that has called nothing. -/
def entry : Frame :=
  { source := { function := 0, address := 0 }, target := { function := 0, address := 0 },
    stack := [] }

/-- Puts a value on top. -/
def push (v : Value) (f : Frame) : Frame := { f with stack := v :: f.stack }

/-- The value on top. -/
def top? (f : Frame) : Option Value := f.stack.head?

/-- Takes the value off the top. -/
def pop? (f : Frame) : Option (Value × Frame) :=
  match f.stack with
  | [] => none
  | v :: rest => some (v, { f with stack := rest })

/-- Takes `count` values off the top, in their order. -/
def take? (count : Nat) (f : Frame) : Option (List Value × Frame) :=
  if count ≤ f.stack.length then
    some (f.stack.take count, { f with stack := f.stack.drop count })
  else none

/-- Puts values on top, in their order. -/
def append (values : List Value) (f : Frame) : Frame := { f with stack := values ++ f.stack }

end Frame

/-- The frames of the running calls: the current one and those that wait for it, innermost
first. -/
structure CallStack where
  current : Frame
  callers : List Frame
  deriving DecidableEq, Repr

namespace CallStack

/-- The call stack with only the entry frame. -/
def initial : CallStack := { current := .entry, callers := [] }

/-- The number of frames. -/
def depth (s : CallStack) : Nat := s.callers.length + 1

/-- All frames, the entry frame first. -/
def frames (s : CallStack) : List Frame := (s.current :: s.callers).reverse

/-- Makes a frame the current one. -/
def push (f : Frame) (s : CallStack) : CallStack :=
  { current := f, callers := s.current :: s.callers }

/-- Ends the current frame, unless it is the entry frame. -/
def pop? (s : CallStack) : Option (Frame × CallStack) :=
  match s.callers with
  | [] => none
  | caller :: rest => some (s.current, { current := caller, callers := rest })

/-- The call stack with the current frame changed. -/
def mapCurrent (f : Frame → Frame) (s : CallStack) : CallStack := { s with current := f s.current }

end CallStack

end ScriptLang
