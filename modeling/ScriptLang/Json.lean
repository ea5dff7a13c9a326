/-!
# JSON documents

JSON values of the kind the syntax tree needs: numbers are natural.  The written form is indented by
two blanks a level, has one item a line, and puts the keys of an object in alphabetical order.
-/

namespace ScriptLang

/-- A JSON value. -/
inductive Json where
  | null
  | bool (b : Bool)
  | nat (n : Nat)
  | str (s : String)
  | arr (items : List Json)
  | obj (fields : List (String × Json))

namespace Json

/-- The digit of a number below sixteen. -/
def hexDigit (n : Nat) : Char := Nat.digitChar n

/-- The characters that stand for `c` inside quotes. -/
def escapeChar (c : Char) : List Char :=
  if c = '"' then ['\\', '"']
  else if c = '\\' then ['\\', '\\']
  else if c = '\n' then ['\\', 'n']
  else if c = '\r' then ['\\', 'r']
  else if c = '\t' then ['\\', 't']
  else if c = '\x08' then ['\\', 'b']
  else if c = '\x0c' then ['\\', 'f']
  else if c.toNat < 0x20 then
    ['\\', 'u', '0', '0', hexDigit (c.toNat / 16), hexDigit (c.toNat % 16)]
  else [c]

/-- A string in quotes. -/
def quote (s : String) : String :=
  "\"" ++ String.ofList (s.toList.flatMap escapeChar) ++ "\""

/-- The line break before an item at a depth. -/
def lineBreak (depth : Nat) : String := "\n" ++ String.ofList (List.replicate (2 * depth) ' ')

/-- Items between an opening and a closing bracket, each on a line of its own. -/
def enclose (opening closing : String) (depth : Nat) (items : List String) : String :=
  if items.isEmpty then opening ++ closing
  else
    opening ++ lineBreak (depth + 1) ++ String.intercalate ("," ++ lineBreak (depth + 1)) items ++
      lineBreak depth ++ closing

mutual

/-- The written form of a value at a depth. -/
def write (depth : Nat) : Json → String
  | null => "null"
  | bool b => if b then "true" else "false"
  | nat n => toString n
  | str s => quote s
  | arr items => enclose "[" "]" depth (writeItems (depth + 1) items)
  | obj fields =>
    let written := writeFields (depth + 1) fields
    let sorted := written.mergeSort fun a b => decide (a.1 ≤ b.1)
    enclose "\x7b" "\x7d" depth (sorted.map fun f => quote f.1 ++ ": " ++ f.2)

/-- The written forms of the items of an array. -/
def writeItems (depth : Nat) : List Json → List String
  | [] => []
  | j :: js => write depth j :: writeItems depth js

/-- The keys of an object with the written forms of their values. -/
def writeFields (depth : Nat) : List (String × Json) → List (String × String)
  | [] => []
  | (key, j) :: fs => (key, write depth j) :: writeFields depth fs

end

/-- The written form of a document. -/
def pretty (j : Json) : String := j.write 0

end Json

end ScriptLang
