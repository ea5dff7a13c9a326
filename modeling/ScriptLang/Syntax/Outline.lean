import ScriptLang.Syntax.Description

/-!
# The outline of a tree

The outline writes a described tree with one field or item a line, indented by four blanks a level
and followed by a comma.  Records stand in braces, wrappers and present contents in parentheses,
lists in brackets; an empty list is `[]`.
-/

namespace ScriptLang.Node

/-- The lines of an item inside a bracket, after its label. -/
def itemLines (label : String) : List String → List String
  | [] => []
  | first :: rest => indentLast (label ++ first) rest
where
  /-- Indents the lines and ends the last with a comma. -/
  indentLast (line : String) : List String → List String
    | [] => ["    " ++ line ++ ","]
    | next :: rest => ("    " ++ line) :: indentLast next rest

mutual

/-- The lines of an outline. -/
def outlineLines : Node → List String
  | nat n => [toString n]
  | bool b => [if b then "true" else "false"]
  | word name => [name]
  | missing => ["None"]
  | present content => ["Some("] ++ itemLines "" content.outlineLines ++ [")"]
  | list items => if items.isEmpty then ["[]"] else ["["] ++ outlineItems items ++ ["]"]
  | record _ name fields => [name ++ " \x7b"] ++ outlineFields fields ++ ["\x7d"]
  | wrapper _ name content => [name ++ "("] ++ itemLines "" content.outlineLines ++ [")"]

/-- The lines of the items of a list. -/
def outlineItems : List Node → List String
  | [] => []
  | n :: ns => itemLines "" n.outlineLines ++ outlineItems ns

/-- The lines of the fields of a record. -/
def outlineFields : List (String × Node) → List String
  | [] => []
  | (label, n) :: fs => itemLines (label ++ ": ") n.outlineLines ++ outlineFields fs

end

/-- The outline of a described tree. -/
def outline (n : Node) : String := String.intercalate "\n" n.outlineLines

end ScriptLang.Node
