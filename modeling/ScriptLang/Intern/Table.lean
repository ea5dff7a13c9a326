import ScriptLang.Intern.Hash

/-!
# The interning table

Texts are interned once and known by dense handles: the first text gets handle 0, the next new one
1, and so on.  A table is keyed on the hash of its texts.  What happens when two different texts
share a hash is the table's policy: under `hashOnly` they share a handle, which stands for the first
of them, and under `verified` each keeps its own.

Entries are only ever added at the end, so a handle once given out keeps its text.
-/

namespace ScriptLang

/-- The handle of an interned text: its place in the table.  Places are natural numbers; a handle of
32 bits is the same as long as a table has no more than 2³² texts. -/
structure Symbol where
  index : Nat
  deriving DecidableEq, Repr, Inhabited

namespace Intern

/-- What a hash already in the table means for a text that has it. -/
inductive Policy where
  /-- An equal hash is taken as an equal text. -/
  | hashOnly
  /-- An equal hash is confirmed by comparing the texts. -/
  | verified
  deriving DecidableEq, Repr, Inhabited

/-- An interned text with its hash. -/
structure Entry where
  text : Text
  hash : UInt32
  deriving DecidableEq, Repr

/-- The entry made for a text. -/
def Entry.ofText (t : Text) : Entry := { text := t, hash := djb2 t }

/-- Whether `new` would share the handle of `e`. -/
def Entry.matches (policy : Policy) (new e : Entry) : Bool :=
  e.hash == new.hash &&
    match policy with
    | .hashOnly => true
    | .verified => e.text == new.text

/-- The interned texts in handle order. -/
structure Table where
  policy : Policy
  entries : List Entry
  deriving DecidableEq, Repr

namespace Table

/-- The table without texts. -/
def empty (policy : Policy) : Table := { policy := policy, entries := [] }

/-- The number of texts. -/
def size (t : Table) : Nat := t.entries.length

/-- The handle of `text`, and the table that holds it: an entry that matches keeps its handle, and
otherwise the text is added at the end. -/
def intern (t : Table) (text : Text) : Symbol × Table :=
  let new := Entry.ofText text
  match t.entries.findIdx? (Entry.matches t.policy new) with
  | some i => (⟨i⟩, t)
  | none => (⟨t.size⟩, { t with entries := t.entries ++ [new] })

/-- The text of a handle, if the table gave it out. -/
def get? (t : Table) (s : Symbol) : Option Text := (t.entries[s.index]?).map Entry.text

/-- The hash of a handle's text, if the table gave it out. -/
def hash? (t : Table) (s : Symbol) : Option UInt32 := (t.entries[s.index]?).map Entry.hash

/-- The texts in handle order. -/
def texts (t : Table) : List Text := t.entries.map Entry.text

/-- The table after interning the texts of a list in order. -/
def internAll (t : Table) (texts : List Text) : Table :=
  texts.foldl (fun t text => (t.intern text).2) t

end Table

end Intern

end ScriptLang
