import ScriptLang.Proofs.Storage.Section
import ScriptLang.Storage.Scope

/-!
# Declared names and their slots

Where names are only ever declared, their slots stand at the front of the row in the order of their
declarations, and free slots come after them.  `Variable.row` is the row of that form.  It is what a
function scope has, and a section whose cursor stands behind the last name.

* `Scope.Holds.declare`, `Section.Holds.add`: a further name gets the next place, and the row keeps
  its form.
* `Variable.find?_row`: a name is found at the place of its first declaration.
-/

namespace ScriptLang

namespace Variable

/-- The slots of names from a place on. -/
def named (storage : StorageClass) (start : Nat) (names : List Symbol) : List Variable :=
  (names.zipIdx start).map fun p =>
    { identifier := .symbol p.1, storage := storage, index := p.2 }

/-- The slots of names, and so many free slots after them. -/
def row (storage : StorageClass) (names : List Symbol) (spare : Nat) : List Variable :=
  named storage 0 names ++ vacantFrom storage names.length spare

variable {storage : StorageClass} {names : List Symbol} {spare : Nat}

@[simp] theorem length_named (storage : StorageClass) (start : Nat) (names : List Symbol) :
    (named storage start names).length = names.length := by
  simp [named]

theorem named_append (storage : StorageClass) (start : Nat) (a b : List Symbol) :
    named storage start (a ++ b) =
      named storage start a ++ named storage (start + a.length) b := by
  simp [named, List.zipIdx_append]

theorem vacantFrom_succ (storage : StorageClass) (start count : Nat) :
    vacantFrom storage start (count + 1) =
      vacant storage start :: vacantFrom storage (start + 1) count := by
  simp [vacantFrom, List.range'_succ]

theorem isFree_of_mem_named {start : Nat} {v : Variable} (h : v ∈ named storage start names) :
    v.isFree = false := by
  obtain ⟨p, -, rfl⟩ := List.mem_map.mp h
  rfl

theorem findIdx?_named (storage : StorageClass) (start : Nat) (names : List Symbol) :
    (named storage start names).findIdx? isFree = none :=
  List.findIdx?_eq_none_iff.mpr fun _ => isFree_of_mem_named

/-- The first free slot is the one behind the names. -/
theorem findIdx?_row (storage : StorageClass) (names : List Symbol) (spare : Nat) :
    (row storage names spare).findIdx? isFree = if spare = 0 then none else some names.length := by
  rw [row, List.findIdx?_append, findIdx?_named]
  cases spare with
  | zero => rfl
  | succ n => simp [vacantFrom_succ, List.findIdx?_cons]

theorem row_succ (storage : StorageClass) (names : List Symbol) (spare : Nat) :
    row storage names (spare + 1) = named storage 0 names ++
      vacant storage names.length :: vacantFrom storage (names.length + 1) spare := by
  rw [row, vacantFrom_succ]

/-- A name in the first free slot makes the row of the names and this one. -/
theorem row_concat (storage : StorageClass) (names : List Symbol) (name : Symbol) (spare : Nat) :
    row storage (names ++ [name]) spare = named storage 0 names ++
      ⟨.symbol name, storage, names.length⟩ :: vacantFrom storage (names.length + 1) spare := by
  rw [row, named_append, List.append_assoc, List.length_append, Nat.zero_add]
  rfl

/-- A full row with new slots is a row with these to spare. -/
theorem row_append_vacantFrom (storage : StorageClass) (names : List Symbol) (count : Nat) :
    row storage names 0 ++ vacantFrom storage names.length count = row storage names count := by
  simp [row, vacantFrom]

/-- Among slots with names, a name is found where it is listed first. -/
theorem find?_named (storage : StorageClass) (start : Nat) (names : List Symbol) (name : Symbol) :
    (named storage start names).find? (·.identifier == .symbol name) =
      (names.idxOf? name).map fun k => ⟨.symbol name, storage, start + k⟩ := by
  induction names generalizing start with
  | nil => rfl
  | cons n names ih =>
      have hcons : named storage start (n :: names) =
          ⟨.symbol n, storage, start⟩ :: named storage (start + 1) names := rfl
      rw [hcons, List.find?_cons, ih, List.idxOf?_cons]
      by_cases hn : n = name
      · simp [hn]
      · have hne : (Identifier.symbol n == .symbol name) = false := by simp [hn]
        simp [hn, hne, Function.comp_def, Nat.add_assoc, Nat.add_comm 1]

/-- **A name is found** at the place of its first declaration. -/
theorem find?_row (storage : StorageClass) (names : List Symbol) (spare : Nat) (name : Symbol) :
    find? (row storage names spare) (.symbol name) =
      (names.idxOf? name).map fun k => ⟨.symbol name, storage, k⟩ := by
  have hvacant : (vacantFrom storage names.length spare).find? (·.identifier == .symbol name) =
      none := by
    rw [List.find?_eq_none]
    intro v hv
    obtain ⟨i, -, rfl⟩ := List.mem_map.mp hv
    simp [vacant]
  rw [find?, if_neg (by simp), row, List.find?_append, find?_named, hvacant]
  simp

end Variable

/-! ### Scopes -/

namespace Scope

variable {s : Scope} {names : List Symbol}

/-- The scope has these names in its first slots, in the order of their declarations. -/
def Holds (names : List Symbol) (s : Scope) : Prop :=
  ∃ spare, s.slots = Variable.row .scope names spare

theorem holds_initial : initial.Holds [] := ⟨2, rfl⟩

/-- Naming a slot changes its identifier and no other slot. -/
theorem slots_name {a b : List Variable} {v : Variable} {index : Nat} (ha : a.length = index)
    (h : s.slots = a ++ v :: b) (id : Identifier) :
    (s.name index id).slots = a ++ { v with identifier := id } :: b := by
  subst ha
  rw [name, h]
  exact List.modifyTailIdx_add _ 0 a (v :: b)

/-- The slot that is given out is the one behind the names. -/
theorem alloc_of_row {spare : Nat} (h : s.slots = Variable.row .scope names spare) :
    ∃ spare', s.alloc.1 = names.length ∧
      s.alloc.2.slots = Variable.named .scope 0 names ++ ⟨.nameless, .scope, names.length⟩ ::
        Variable.vacantFrom .scope (names.length + 1) spare' := by
  have hname : ∀ (s' : Scope) (n : Nat), s'.slots = Variable.row .scope names (n + 1) →
      (s'.name names.length .nameless).slots = Variable.named .scope 0 names ++
        ⟨.nameless, .scope, names.length⟩ :: Variable.vacantFrom .scope (names.length + 1) n := by
    intro s' n hs'
    rw [Variable.row_succ] at hs'
    exact slots_name (Variable.length_named ..) hs' .nameless
  unfold alloc
  rw [h, Variable.findIdx?_row]
  cases spare with
  | zero =>
      have hcapacity : s.capacity = names.length := by
        simp [capacity, h, Variable.row, Variable.vacantFrom]
      refine ⟨1, hcapacity, ?_⟩
      simp only [if_true, hcapacity, Variable.row_append_vacantFrom]
      exact hname _ 1 rfl
  | succ n => exact ⟨n, rfl, hname s n h⟩

/-- **A further name gets the next place** of its scope. -/
theorem Holds.declare (h : s.Holds names) (name : Symbol) :
    (s.declare (.symbol name)).1 = ⟨.symbol name, .scope, names.length⟩ ∧
      (s.declare (.symbol name)).2.Holds (names ++ [name]) := by
  obtain ⟨spare, hslots⟩ := h
  obtain ⟨spare', hindex, halloc⟩ := alloc_of_row hslots
  refine ⟨by simp only [Scope.declare, hindex], spare', ?_⟩
  rw [Variable.row_concat]
  exact slots_name ((Variable.length_named ..).trans hindex.symm) halloc (.symbol name)

/-- **A name is found** in its scope at the place of its first declaration. -/
theorem Holds.find? (h : s.Holds names) (name : Symbol) :
    s.find? (.symbol name) =
      (names.idxOf? name).map fun k => ⟨.symbol name, .scope, k⟩ := by
  obtain ⟨spare, hslots⟩ := h
  rw [Scope.find?, hslots, Variable.find?_row]

end Scope

/-! ### Sections -/

namespace Section

variable {s : Section} {names : List Symbol}

/-- The section has these names in its first slots, in the order of their additions, and its cursor
behind them. -/
structure Holds (names : List Symbol) (s : Section) : Prop where
  slots : ∃ spare, s.slots = Variable.row s.storage names spare
  cursor : s.cursor = names.length

theorem holds_ofSize (storage : StorageClass) (size : Nat) : (ofSize storage size).Holds [] :=
  ⟨⟨size, rfl⟩, rfl⟩

/-- The slot that is given out is the one behind the names. -/
theorem hole?_of_row {spare : Nat} (h : s.slots = Variable.row s.storage names spare)
    (hc : s.cursor = names.length) : s.hole? = if spare = 0 then none else some names.length := by
  have hlength := Variable.length_named s.storage 0 names
  have hdrop : s.slots.drop s.cursor = Variable.vacantFrom s.storage names.length spare := by
    rw [h, hc, Variable.row, List.drop_left' hlength]
  have htake : s.slots.take s.cursor = Variable.named s.storage 0 names := by
    rw [h, hc, Variable.row, List.take_left' hlength]
  unfold hole?
  rw [hdrop, htake]
  cases spare with
  | zero => exact Variable.findIdx?_named _ _ _
  | succ n => simp [Variable.vacantFrom_succ, List.findIdx?_cons, hc]

/-- A name in the first free slot of a row is one more name of the row. -/
theorem holds_fill {spare : Nat} (h : s.slots = Variable.row s.storage names (spare + 1))
    (name : Symbol) : (s.fill names.length (.symbol name)).Holds (names ++ [name]) := by
  refine ⟨⟨spare, ?_⟩, by simp [fill]⟩
  rw [Variable.row_succ] at h
  simp [fill, h, Variable.row_concat]

/-- **A further name gets the next place** of its section. -/
theorem Holds.add (h : s.Holds names) (name : Symbol) :
    (s.add (.symbol name)).1 = names.length ∧
      (s.add (.symbol name)).2.Holds (names ++ [name]) ∧
      (s.add (.symbol name)).2.storage = s.storage := by
  obtain ⟨spare, hslots⟩ := h.slots
  unfold Section.add
  rw [hole?_of_row hslots h.cursor]
  cases spare with
  | zero =>
      have hcapacity : s.capacity = names.length := by
        simp [capacity, hslots, Variable.row, Variable.vacantFrom]
      have hgrow : s.grow.slots = Variable.row s.grow.storage names (1 + 1) := by
        simp only [grow, hcapacity, hslots, Variable.row_append_vacantFrom]
        rfl
      rw [hcapacity]
      exact ⟨rfl, holds_fill hgrow name, rfl⟩
  | succ n => exact ⟨rfl, holds_fill hslots name, rfl⟩

/-- **A name is found** in its section at the place of its first declaration. -/
theorem Holds.find? (h : s.Holds names) (name : Symbol) :
    s.find? (.symbol name) =
      (names.idxOf? name).map fun k => ⟨.symbol name, s.storage, k⟩ := by
  obtain ⟨spare, hslots⟩ := h.slots
  rw [Section.find?, hslots, Variable.find?_row]

end Section

end ScriptLang
