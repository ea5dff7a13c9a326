import ScriptLang.Storage.Variable

/-!
# Sections

A section is a growing row of slots of one class with a cursor.  Adding takes the first free slot at
or after the cursor, or else the first before it, or else the first of two new slots, and leaves the
cursor behind the slot taken.  Freeing a slot pulls the cursor back to it.
-/

namespace ScriptLang

/-- The slots of a class and where the search for a free one begins. -/
structure Section where
  storage : StorageClass
  cursor : Nat
  slots : List Variable
  deriving DecidableEq, Repr

namespace Section

/-- A section of so many free slots. -/
def ofSize (storage : StorageClass) (size : Nat) : Section :=
  { storage := storage, cursor := 0, slots := Variable.vacantFrom storage 0 size }

/-- The number of slots, free or not. -/
def capacity (s : Section) : Nat := s.slots.length

/-- The number of slots that something occupies. -/
def occupied (s : Section) : Nat := Variable.occupied s.slots

/-- The free slot that the next addition takes, if there is one. -/
def hole? (s : Section) : Option Nat :=
  match (s.slots.drop s.cursor).findIdx? Variable.isFree with
  | some i => some (s.cursor + i)
  | none => (s.slots.take s.cursor).findIdx? Variable.isFree

/-- The section with two more slots. -/
def grow (s : Section) : Section :=
  { s with slots := s.slots ++ Variable.vacantFrom s.storage s.capacity storageStep }

/-- The section with a slot filled and the cursor behind it. -/
def fill (s : Section) (index : Nat) (id : Identifier) : Section :=
  let v : Variable := { identifier := id, storage := s.storage, index := index }
  { s with slots := s.slots.set index v, cursor := index + 1 }

/-- Gives an identifier a slot. -/
def add (s : Section) (id : Identifier) : Nat × Section :=
  match s.hole? with
  | some index => (index, s.fill index id)
  | none => (s.capacity, s.grow.fill s.capacity id)

/-- Frees a slot; says whether something occupied it. -/
def free (s : Section) (index : Nat) : Bool × Section :=
  match s.slots[index]? with
  | some v =>
    if v.isFree then (false, s)
    else
      (true,
        { s with
          slots := s.slots.set index (.vacant s.storage index)
          cursor := min s.cursor index })
  | none => (false, s)

/-- The slot at a place. -/
def get? (s : Section) (index : Nat) : Option Variable := s.slots[index]?

/-- The first slot that an identifier occupies. -/
def find? (s : Section) (id : Identifier) : Option Variable := Variable.find? s.slots id

/-- A slot, which becomes occupied without a name if it was free. -/
def claim (s : Section) (index : Nat) : Option Variable × Section :=
  match s.slots[index]? with
  | some v =>
    let v := if v.isFree then { v with identifier := .nameless } else v
    (some v, { s with slots := s.slots.set index v })
  | none => (none, s)

end Section

end ScriptLang
