import ScriptLang.Proofs.Storage.Cursor
import ScriptLang.Storage.Scope

/-!
# Scopes allocate like sections

A scope looks for a free slot from the start every time, takes it without a name and names it
afterwards.  A section looks from its cursor on and writes the whole slot at once.  Asked for the
same things they give the same answers and have the same slots.

The two run in lockstep, related by `Mirrors`: they have the same slots, which have their place and
class, since a scope changes no more than the identifier of a slot; and the slots of the section are
packed, since otherwise its cursor would pass over a hole that the scope finds.

* `slots_name_eq_fill`: an identifier written into a slot in its place is the slot written afresh.
* `Mirrors.serve`, `Mirrors.serveAll`: one request, and any number of them.
* **Scopes allocate like sections** (`answers_eq_section`).
-/

namespace ScriptLang

namespace Scope

/-- What is asked of storage for the variables of a function. -/
inductive Request where
  | declare (id : Identifier)
  /-- A slot without a name. -/
  | alloc
  | free (index : Nat)
  deriving DecidableEq, Repr

/-- The slot that was taken, or whether one was occupied that is to be free. -/
inductive Answer where
  | slot (index : Nat)
  | freed (occupied : Bool)
  deriving DecidableEq, Repr

/-- The answers to requests one after the other, and what they leave. -/
def Request.serveAll {σ : Type} (serve : Request → σ → Answer × σ) :
    List Request → σ → List Answer × σ
  | [], s => ([], s)
  | r :: rs, s =>
    let (answer, s) := serve r s
    let (answers, s) := serveAll serve rs s
    (answer :: answers, s)

/-- How a scope serves a request. -/
def serve : Request → Scope → Answer × Scope
  | .declare id, s =>
    let (v, s) := s.declare id
    (.slot v.index, s)
  | .alloc, s =>
    let (index, s) := s.alloc
    (.slot index, s)
  | .free index, s =>
    let (occupied, s) := s.free index
    (.freed occupied, s)

end Scope

/-- How a section serves a request.  A slot without a name is one for `nameless`. -/
def Section.serve : Scope.Request → Section → Scope.Answer × Section
  | .declare id, s =>
    let (index, s) := s.add id
    (.slot index, s)
  | .alloc, s =>
    let (index, s) := s.add .nameless
    (.slot index, s)
  | .free index, s =>
    let (occupied, s) := s.free index
    (.freed occupied, s)

namespace Scope

variable {scope : Scope} {s : Section} {id : Identifier} {index : Nat} {v : Variable}

theorem name_name (scope : Scope) (index : Nat) (a b : Identifier) :
    (scope.name index a).name index b = scope.name index b := by
  simp only [name, List.modify_modify_eq]
  rfl

/-- A slot that was just given out has no name yet. -/
theorem alloc_name_nameless (scope : Scope) :
    scope.alloc.2.name scope.alloc.1 .nameless = scope.alloc.2 := by
  unfold alloc
  cases scope.slots.findIdx? Variable.isFree <;> exact name_name ..

/-- The scope and the section have the same slots, in their place, and none is free below the
cursor. -/
structure Mirrors (scope : Scope) (s : Section) : Prop where
  slots : scope.slots = s.slots
  storage : s.storage = .scope
  sound : s.Sound
  packed : s.Packed

theorem mirrors_initial : Mirrors initial (.ofSize .scope 2) :=
  ⟨rfl, rfl, Section.sound_ofSize _ _, Section.packed_ofSize _ _⟩

/-! ### Taking a slot -/

/-- An identifier written into a slot in its place is the slot written afresh. -/
theorem slots_name_eq_fill (hslots : scope.slots = s.slots) (hslot : s.get? index = some v)
    (hplace : v.index = index ∧ v.storage = s.storage) (id : Identifier) :
    (scope.name index id).slots = (s.fill index id).slots := by
  obtain ⟨hlt, rfl⟩ := List.getElem?_eq_some_iff.mp hslot
  rw [name, Section.fill, hslots]
  refine List.ext_getElem? fun i => ?_
  rw [List.getElem?_modify, List.getElem?_set]
  by_cases hi : index = i
  · subst hi
    simp only [if_true, hlt, List.getElem?_eq_getElem hlt, Option.map_eq_map, Option.map_some,
      hplace]
  · simp [hi]

/-- The scope takes the slot that the section takes, and is left like it once the slot is named. -/
theorem Mirrors.alloc (h : Mirrors scope s) (id : Identifier) :
    scope.alloc.1 = (s.add id).1 ∧
      (scope.alloc.2.name scope.alloc.1 id).slots = (s.add id).2.slots := by
  unfold Scope.alloc Section.add
  rw [h.slots, h.packed.hole?_eq]
  cases hhole : s.slots.findIdx? Variable.isFree with
  | some index =>
      rw [← h.packed.hole?_eq] at hhole
      obtain ⟨v, hv, -⟩ := Section.isVacant_iff.mp (Section.isVacant_of_hole? hhole)
      refine ⟨rfl, ?_⟩
      rw [name_name]
      exact slots_name_eq_fill h.slots hv (h.sound.slot index v hv) id
  | none =>
      have hcapacity : scope.capacity = s.capacity := congrArg List.length h.slots
      have hgrown : s.slots ++ Variable.vacantFrom .scope s.capacity storageStep =
          s.grow.slots := by rw [Section.grow, h.storage]
      refine ⟨hcapacity, ?_⟩
      simp only [name_name, hcapacity]
      exact slots_name_eq_fill hgrown (Section.get?_grow_of_le (Nat.le_refl _) (by omega))
        ⟨rfl, rfl⟩ id

/-- Where a section gives an identifier a slot and a scope has the same slots then, they go on in
lockstep. -/
theorem Mirrors.add {scope' : Scope} (h : Mirrors scope s) (hid : id ≠ .free)
    (hslots : scope'.slots = (s.add id).2.slots) : Mirrors scope' (s.add id).2 where
  slots := hslots
  storage := (s.added_add id).storage.trans h.storage
  sound := (s.added_add id).sound h.sound
  packed := h.packed.add hid

/-! ### Freeing a slot -/

/-- A scope and its section free the same slots and go on in lockstep. -/
theorem Mirrors.free (h : Mirrors scope s) (index : Nat) :
    (scope.free index).1 = (s.free index).1 ∧
      Mirrors (scope.free index).2 (s.free index).2 := by
  have hanswer : (scope.free index).1 = (s.free index).1 ∧
      (scope.free index).2.slots = (s.free index).2.slots := by
    unfold Scope.free Section.free
    rw [h.slots, h.storage]
    cases s.slots[index]? with
    | none => exact ⟨rfl, h.slots⟩
    | some v => cases hv : v.isFree <;> simp [hv, h.slots]
  have hfreed := s.freed_free index
  exact ⟨hanswer.1, hanswer.2, hfreed.storage.trans h.storage, hfreed.sound h.sound,
    h.packed.free index⟩

/-! ### All requests -/

/-- **One request** is answered alike, and the slots stay the same. -/
theorem Mirrors.serve (h : Mirrors scope s) {r : Request} (hr : r ≠ .declare .free) :
    (Scope.serve r scope).1 = (Section.serve r s).1 ∧
      Mirrors (Scope.serve r scope).2 (Section.serve r s).2 := by
  cases r with
  | declare id =>
      obtain ⟨hindex, hslots⟩ := h.alloc id
      exact ⟨congrArg Answer.slot hindex, h.add (fun hid => hr (hid ▸ rfl)) hslots⟩
  | alloc =>
      obtain ⟨hindex, hslots⟩ := h.alloc .nameless
      rw [alloc_name_nameless] at hslots
      exact ⟨congrArg Answer.slot hindex, h.add nofun hslots⟩
  | free index =>
      obtain ⟨hanswer, hfree⟩ := h.free index
      exact ⟨congrArg Answer.freed hanswer, hfree⟩

/-- **Any number of requests** are. -/
theorem Mirrors.serveAll (h : Mirrors scope s) {rs : List Request} (hrs : .declare .free ∉ rs) :
    (Request.serveAll Scope.serve rs scope).1 = (Request.serveAll Section.serve rs s).1 ∧
      Mirrors (Request.serveAll Scope.serve rs scope).2
        (Request.serveAll Section.serve rs s).2 := by
  induction rs generalizing scope s with
  | nil => exact ⟨rfl, h⟩
  | cons r rs ih =>
      rw [List.mem_cons, not_or] at hrs
      obtain ⟨hanswer, hnext⟩ := h.serve (Ne.symm hrs.1)
      obtain ⟨hanswers, hlast⟩ := ih hnext hrs.2
      exact ⟨congrArg₂ List.cons hanswer hanswers, hlast⟩

/-- **Scopes allocate like sections.**  A new scope and a section of two slots of its class give the
same answers to the same requests, as long as `free` itself is not declared.  After that they have
the same number of slots and the same slots, and find the same variable for every identifier; and
the variable that a declaration answers with is the slot that the section has for it. -/
theorem answers_eq_section (requests : List Request) (h : .declare .free ∉ requests) :
    let a := Request.serveAll Scope.serve requests initial
    let b := Request.serveAll Section.serve requests (.ofSize .scope 2)
    a.1 = b.1 ∧ a.2.capacity = b.2.capacity ∧ (∀ i, a.2.get? i = b.2.get? i) ∧
      (∀ id, a.2.find? id = b.2.find? id) ∧
      ∀ id, some (a.2.declare id).1 = (b.2.add id).2.get? (b.2.add id).1 := by
  intro a b
  obtain ⟨hanswers, hmirrors⟩ := mirrors_initial.serveAll h
  have hslots : a.2.slots = b.2.slots := hmirrors.slots
  refine ⟨hanswers, congrArg List.length hslots, fun i => ?_, fun id => ?_, fun id => ?_⟩
  · rw [get?, hslots, Section.get?]
  · rw [find?, hslots, Section.find?]
  · rw [(b.2.added_add id).slot, ← (hmirrors.alloc id).1, hmirrors.storage]
    rfl

/-- Holes on both sides of the cursor, a slot freed twice, and growth. -/
theorem answers_eq_section_holes :
    let requests : List Request := [.declare .nil, .alloc, .alloc, .free 1, .free 0, .free 0,
      .declare .true, .alloc, .alloc, .alloc]
    let answers : List Answer := [.slot 0, .slot 1, .slot 2, .freed true, .freed true, .freed false,
      .slot 0, .slot 1, .slot 3, .slot 4]
    .declare .free ∉ requests ∧ (Request.serveAll Scope.serve requests initial).1 = answers ∧
      (Request.serveAll Section.serve requests (.ofSize .scope 2)).1 = answers := by
  intro requests answers
  have hfree : .declare .free ∉ requests := by decide
  have hscope : (Request.serveAll Scope.serve requests initial).1 = answers := by decide
  exact ⟨hfree, hscope, (answers_eq_section requests hfree).1.symm.trans hscope⟩

end Scope

end ScriptLang
