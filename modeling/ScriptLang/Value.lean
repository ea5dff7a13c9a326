import ScriptLang.Value.Number

/-!
# Values

A value is a kind and 64 bits.  Numbers keep the bit pattern of a double, booleans are 0 or 1,
strings and functions keep a handle, and nil is 0.  Nothing stops a value from having other bits,
and every operation says what it makes of them.
-/

namespace ScriptLang

/-- What a value is. -/
inductive Kind where
  | nil
  | bool
  | number
  | string
  | function
  deriving DecidableEq, Repr

/-- How a kind is written. -/
def Kind.name : Kind → String
  | nil => "Nil"
  | bool => "Bool"
  | number => "Number"
  | string => "String"
  | function => "Function"

/-- A kind and 64 bits. -/
structure Value where
  kind : Kind
  payload : UInt64
  deriving DecidableEq, Repr

namespace Value

/-- The value of `nil`. -/
def nil : Value := { kind := .nil, payload := 0 }

instance : Inhabited Value where
  default := nil

/-- The value of a boolean. -/
def bool (b : Bool) : Value := { kind := .bool, payload := if b then 1 else 0 }

/-- The number with a bit pattern. -/
def number (bits : UInt64) : Value := { kind := .number, payload := bits }

/-- The string with a handle. -/
def string (handle : UInt32) : Value := { kind := .string, payload := handle.toUInt64 }

/-- The function with an id. -/
def function (id : UInt32) : Value := { kind := .function, payload := id.toUInt64 }

/-- The bit pattern of a number. -/
def number? (v : Value) : Option UInt64 := if v.kind = .number then some v.payload else none

/-- The boolean a value is: anything but zero counts as true. -/
def bool? (v : Value) : Option Bool := if v.kind = .bool then some (v.payload != 0) else none

/-- The handle of a string or a function: the low half of its bits. -/
def handle? (v : Value) : Option UInt32 :=
  match v.kind with
  | .string | .function => some v.payload.toUInt32
  | _ => none

/-- Only nil and false are falsey. -/
def falsey (v : Value) : Bool := v.kind == .nil || (v.kind == .bool && v.payload == 0)

/-- Everything that is not falsey is truthy. -/
def truthy (v : Value) : Bool := !v.falsey

/-- Equality as programs see it: of the same kind, and with equal bits or bits that are equal as
numbers, whatever the kind. -/
def looseEq (v w : Value) : Bool :=
  v.kind == w.kind && (v.payload == w.payload || Number.equal v.payload w.payload)

/-- A value in words. -/
def render (v : Value) : String :=
  match v.kind with
  | .nil => "Nil"
  | .number => "Number(" ++ Number.render v.payload ++ ")"
  | kind => kind.name ++ "(" ++ toString v.payload.toNat ++ ")"

end Value

end ScriptLang
