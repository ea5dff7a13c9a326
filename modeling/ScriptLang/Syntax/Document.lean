import ScriptLang.Json
import ScriptLang.Syntax.Description

/-!
# The JSON document of a tree

A record is the object of its fields, and a wrapper its content.  Where either is one of several
alternatives, it stands in an object under its name; an alternative without content is the string
of its name.
-/

namespace ScriptLang.Node

/-- A value under its name, if the name matters. -/
def tag (tagged : Bool) (name : String) (j : Json) : Json :=
  if tagged then .obj [(name, j)] else j

mutual

/-- The JSON form of a described tree. -/
def toJson : Node → Json
  | nat n => .nat n
  | bool b => .bool b
  | word name => .str name
  | missing => .null
  | present content => content.toJson
  | list items => .arr (itemsToJson items)
  | record tagged name fields => tag tagged name (.obj (fieldsToJson fields))
  | wrapper tagged name content => tag tagged name content.toJson

/-- The JSON forms of the items of a list. -/
def itemsToJson : List Node → List Json
  | [] => []
  | n :: ns => n.toJson :: itemsToJson ns

/-- The JSON forms of the fields of a record. -/
def fieldsToJson : List (String × Node) → List (String × Json)
  | [] => []
  | (label, n) :: fs => (label, n.toJson) :: fieldsToJson fs

end

end ScriptLang.Node
