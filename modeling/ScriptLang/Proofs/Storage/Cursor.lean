import Mathlib.Order.Bounds.Basic
import ScriptLang.Proofs.Storage.SymbolTable

/-!
# The cursor of a section

An addition searches from the cursor on, then before it.  It finds the lowest free slot all the
same, because nothing below the cursor is free (`Packed`): an addition leaves the cursor behind the
lowest free slot, which it fills; a release pulls the cursor back to the slot it frees; a claim
occupies a slot and leaves the cursor alone.

* `Packed.hole?_eq`: the search that begins at the cursor is the search from the start.
* `Packed.add`, `Packed.free`, `Packed.claim`: each operation keeps the slots packed;
  `Packed.after` and `packed_after`: so does a history, of a section and of a symbol table.
* **Lowest first** (`lowestFirst_after`).
-/

namespace ScriptLang

namespace Section

variable {s : Section} {id : Identifier} {i index : Nat}

/-- No slot below the cursor is free. -/
def Packed (s : Section) : Prop := ∀ i < s.cursor, s.isLive i

/-- No slot is both occupied and free. -/
theorem not_isVacant_of_isLive (h : s.isLive i) : ¬ s.isVacant i := by
  obtain ⟨v, hv, hfree⟩ := isLive_iff.mp h
  rw [isVacant_iff]
  rintro ⟨w, hw, hfree'⟩
  cases hv.symm.trans hw
  rw [hfree] at hfree'
  cases hfree'

/-- A slot that exists is occupied or free. -/
theorem isLive_of_not_isVacant (h : ¬ s.isVacant i) (hlt : i < s.capacity) : s.isLive i := by
  obtain ⟨v, hv⟩ : ∃ v, s.get? i = some v := ⟨_, List.getElem?_eq_getElem hlt⟩
  refine isLive_iff.mpr ⟨v, hv, ?_⟩
  by_contra hfree
  exact h (isVacant_iff.mpr ⟨v, hv, by simpa using hfree⟩)

/-! ### The search for a free slot -/

/-- The part of the search that wraps around finds nothing. -/
theorem Packed.findIdx?_take (h : s.Packed) :
    (s.slots.take s.cursor).findIdx? Variable.isFree = none := by
  rw [List.findIdx?_eq_none_iff]
  intro v hv
  obtain ⟨i, hi⟩ := List.getElem?_of_mem hv
  rw [List.getElem?_take] at hi
  split at hi
  next hcursor =>
    obtain ⟨w, hw, hfree⟩ := isLive_iff.mp (h i hcursor)
    cases hi.symm.trans hw
    exact hfree
  next => cases hi

/-- The search finds nothing but what stands behind the cursor. -/
theorem Packed.hole?_eq_drop (h : s.Packed) :
    s.hole? = ((s.slots.drop s.cursor).findIdx? Variable.isFree).map (s.cursor + ·) := by
  unfold hole?
  rw [h.findIdx?_take]
  cases (s.slots.drop s.cursor).findIdx? Variable.isFree <;> rfl

/-- The search from the cursor on is the search from the start. -/
theorem Packed.hole?_eq (h : s.Packed) : s.hole? = s.slots.findIdx? Variable.isFree := by
  have hsplit : s.slots.findIdx? Variable.isFree =
      ((s.slots.drop s.cursor).findIdx? Variable.isFree).map
        (· + (s.slots.take s.cursor).length) := by
    conv => lhs; rw [← List.take_append_drop s.cursor s.slots]
    rw [List.findIdx?_append, h.findIdx?_take, Option.none_or]
  rw [h.hole?_eq_drop, hsplit]
  cases hdrop : (s.slots.drop s.cursor).findIdx? Variable.isFree with
  | none => rfl
  | some k =>
      obtain ⟨hlt, -⟩ := List.findIdx?_eq_some_iff_getElem.mp hdrop
      have hcursor : s.cursor ≤ s.slots.length := by
        rw [List.length_drop] at hlt
        omega
      rw [Option.map_some, Option.map_some, List.length_take_of_le hcursor, Nat.add_comm]

/-- **An addition takes the lowest free slot**, or the first new one if there is none. -/
theorem Packed.isLeast_add (h : s.Packed) (id : Identifier) :
    IsLeast {i | s.isVacant i} (s.add id).1 ∨
      (∀ i, ¬ s.isVacant i) ∧ (s.add id).1 = s.capacity := by
  unfold add
  cases hhole : s.hole? with
  | none => exact .inr ⟨not_isVacant_of_hole? hhole, rfl⟩
  | some index =>
      refine .inl ⟨isVacant_of_hole? hhole, fun i hi => ?_⟩
      rw [h.hole?_eq] at hhole
      obtain ⟨_, _, hbefore⟩ := List.findIdx?_eq_some_iff_getElem.mp hhole
      by_contra hlt
      obtain ⟨v, hv, hfree⟩ := isVacant_iff.mp hi
      obtain ⟨_, rfl⟩ := List.getElem?_eq_some_iff.mp hv
      exact hbefore i (Nat.lt_of_not_le hlt) hfree

/-- Nothing below the slot that an addition takes is free. -/
theorem Packed.isLive_of_lt_add (h : s.Packed) (hi : i < (s.add id).1) : s.isLive i := by
  rcases h.isLeast_add id with hleast | ⟨hfull, hcapacity⟩
  · obtain ⟨v, hv, -⟩ := isVacant_iff.mp hleast.1
    exact isLive_of_not_isVacant (fun hvacant => Nat.not_le_of_lt hi (hleast.2 hvacant))
      (Nat.lt_trans hi (lt_capacity hv))
  · exact isLive_of_not_isVacant (hfull i) (hcapacity ▸ hi)

/-! ### Operations -/

theorem packed_ofSize (storage : StorageClass) (size : Nat) : (ofSize storage size).Packed :=
  fun _ hi => absurd hi (Nat.not_lt_zero _)

/-- Below the slot that an addition takes all are occupied, and so is that slot afterwards. -/
theorem Packed.add (h : s.Packed) (hid : id ≠ .free) : (s.add id).2.Packed := by
  have hadded := s.added_add id
  intro i hi
  rw [hadded.cursor, Nat.lt_succ_iff_lt_or_eq] at hi
  rcases hi with hi | rfl
  · exact (hadded.isLive (h.isLive_of_lt_add hi)).2
  · exact hadded.isLive_self hid

/-- The cursor comes back to a slot that is freed below it. -/
theorem Packed.free (h : s.Packed) (index : Nat) : (s.free index).2.Packed := by
  have hfreed := s.freed_free index
  by_cases hlive : s.isLive index
  · have hcursor : (s.free index).2.cursor = min s.cursor index := by rw [free_eq, if_pos hlive]
    intro i hi
    rw [hcursor, Nat.lt_min] at hi
    exact hfreed.isLive (Nat.ne_of_lt hi.2) (h i hi.1)
  · rw [hfreed.kept hlive]
    exact h

theorem Packed.claim (h : s.Packed) (index : Nat) : (s.claim index).2.Packed := by
  have hclaimed := s.claimed_claim index
  intro i hi
  rw [hclaimed.cursor] at hi
  exact hclaimed.isLive (h i hi)

/-- What is done to a section. -/
inductive Operation where
  | add (id : Identifier)
  | free (index : Nat)
  | claim (index : Nat)
  deriving DecidableEq, Repr

namespace Operation

/-- The section after an operation. -/
def apply : Operation → Section → Section
  | add id, s => (s.add id).2
  | free index, s => (s.free index).2
  | claim index, s => (s.claim index).2

/-- Whether an operation cannot occupy a slot: it adds nothing and does not claim the slot. -/
def spares (index : Nat) : Operation → Bool
  | add _ => false
  | free _ => true
  | claim i => i != index

end Operation

/-- The section after a history. -/
def after (s : Section) (ops : List Operation) : Section := ops.foldl (fun s op => op.apply s) s

/-- **One operation** keeps the slots packed. -/
theorem Packed.apply (h : s.Packed) {op : Operation} (hop : op ≠ .add .free) :
    (op.apply s).Packed := by
  cases op with
  | add id => exact h.add fun hid => hop (hid ▸ rfl)
  | free index => exact h.free index
  | claim index => exact h.claim index

/-- **A history** does, too. -/
theorem Packed.after {ops : List Operation} (h : s.Packed) (hops : .add .free ∉ ops) :
    (s.after ops).Packed := by
  induction ops generalizing s with
  | nil => exact h
  | cons op ops ih =>
      rw [List.mem_cons, not_or] at hops
      exact ih (h.apply (Ne.symm hops.1)) hops.2

/-! ### Slots that were freed -/

theorem isVacant_free (h : (s.free index).1) : (s.free index).2.isVacant index := by
  have hfreed := s.freed_free index
  exact isVacant_iff.mpr ⟨_, hfreed.slot (hfreed.answer ▸ h), rfl⟩

/-- **One operation** leaves a slot free that it spares. -/
theorem isVacant_apply {op : Operation} (h : s.isVacant index) (hop : op.spares index) :
    (op.apply s).isVacant index := by
  cases op with
  | add id => cases hop
  | free i =>
      have hfreed := s.freed_free i
      by_cases hi : index = i
      · subst hi
        rw [Operation.apply, hfreed.kept fun hlive => not_isVacant_of_isLive hlive h]
        exact h
      · rw [Operation.apply, isVacant, hfreed.others index hi]
        exact h
  | claim i =>
      have hi : index ≠ i := Ne.symm (bne_iff_ne.mp hop)
      rw [Operation.apply, isVacant, (s.claimed_claim i).others index hi]
      exact h

/-- **A history** does, too. -/
theorem isVacant_after {ops : List Operation} (h : s.isVacant index)
    (hops : ∀ op ∈ ops, op.spares index) : (s.after ops).isVacant index := by
  induction ops generalizing s with
  | nil => exact h
  | cons op ops ih =>
      rw [List.forall_mem_cons] at hops
      exact ih (isVacant_apply h hops.1) hops.2

theorem add_free_not_mem_of_spares {ops : List Operation} (h : ∀ op ∈ ops, op.spares index) :
    .add .free ∉ ops := fun hmem => nomatch h _ hmem

/-! ### Lowest first -/

/-- How a section gives out its slots.

* All slots below the cursor are occupied.
* An addition takes the lowest free slot, or the first past the end if none is free.
* The slot that the search finds is never one before the cursor.
* A slot that was freed is the next that an addition takes, unless it was claimed in the meantime or
  a lower slot is free. -/
structure LowestFirst (s : Section) : Prop where
  occupied : ∀ i < s.cursor, s.isLive i
  add : ∀ id, IsLeast {i | s.isVacant i} (s.add id).1 ∨
    (∀ i, ¬ s.isVacant i) ∧ (s.add id).1 = s.capacity
  search : s.hole? = ((s.slots.drop s.cursor).findIdx? Variable.isFree).map (s.cursor + ·)
  reuse : ∀ index, (s.free index).1 → ∀ later : List Operation,
    (∀ op ∈ later, op.spares index) →
      let s' := (s.free index).2.after later
      (∀ i < index, ¬ s'.isVacant i) → ∀ id, (s'.add id).1 = index

/-- **Packed slots are given out lowest first.** -/
theorem Packed.lowestFirst (h : s.Packed) : s.LowestFirst where
  occupied := h
  add := h.isLeast_add
  search := h.hole?_eq_drop
  reuse := by
    intro index hfreed later hlater s' hlower id
    have hpacked : s'.Packed := (h.free index).after (add_free_not_mem_of_spares hlater)
    have hvacant : s'.isVacant index := isVacant_after (isVacant_free hfreed) hlater
    rcases hpacked.isLeast_add id with hleast | ⟨hfull, -⟩
    · refine Nat.le_antisymm (hleast.2 hvacant) (Nat.le_of_not_lt fun hlt => ?_)
      exact hlower _ hlt hleast.1
    · exact absurd hvacant (hfull index)

end Section

/-! ### Symbol tables -/

namespace SymbolTable

variable {t : SymbolTable}

/-- **One operation** keeps the slots of every section packed. -/
theorem packed_apply {op : Operation} (h : ∀ kind, (t.get kind).Packed)
    (hop : ∀ kind, op ≠ .add kind .free) (kind : SectionKind) : ((op.apply t).get kind).Packed := by
  have hacts := acts_apply kind op t
  generalize (op.apply t).get kind = s at hacts ⊢
  cases hacts with
  | add id => exact (h kind).add fun hid => hop kind (hid ▸ rfl)
  | free index => exact (h kind).free index
  | claim index => exact (h kind).claim index
  | other => exact h kind

/-- **A history** does, too. -/
theorem packed_after {ops : List Operation} (h : ∀ kind, (t.get kind).Packed)
    (hops : ∀ kind, .add kind .free ∉ ops) (kind : SectionKind) :
    ((t.after ops).get kind).Packed := by
  induction ops generalizing t with
  | nil => exact h kind
  | cons op ops ih =>
      simp only [List.mem_cons, not_or] at hops
      exact ih (packed_apply h fun kind => Ne.symm (hops kind).1) fun kind => (hops kind).2

/-- The table at the start was filled by additions, so its sections are packed. -/
theorem packed_initial (kind : SectionKind) : (initial.get kind).Packed := by
  have hvacant : ∀ kind, (vacant.get kind).Packed := by
    intro kind
    cases kind <;> exact Section.packed_ofSize _ _
  rw [initial_eq]
  exact packed_after hvacant (fun kind => by cases kind <;> decide) kind

end SymbolTable

namespace Section

/-- **Lowest first.**  Whatever its class and size at the start, and whatever is added to it, freed
and claimed, a section gives out its slots lowest first; so do all sections of a symbol table, whose
constants are those that can be claimed.  Only `free` itself must not be added. -/
theorem lowestFirst_after :
    (∀ storage size (ops : List Operation), .add .free ∉ ops →
      ((ofSize storage size).after ops).LowestFirst) ∧
    ∀ ops : List SymbolTable.Operation, (∀ kind, .add kind .free ∉ ops) →
      ∀ kind, ((SymbolTable.initial.after ops).get kind).LowestFirst := by
  constructor
  · intro storage size ops hops
    exact ((packed_ofSize storage size).after hops).lowestFirst
  · intro ops hops kind
    exact (SymbolTable.packed_after SymbolTable.packed_initial hops kind).lowestFirst

/-- Holes are filled from below whatever side of the cursor they are on, and a slot that was claimed
is passed over. -/
example :
    let s := (ofSize .constant 4).after
      [.add .nil, .add .nil, .claim 2, .add .nil, .free 2, .free 0, .add .true]
    s.cursor = 1 ∧ (s.add .true).1 = 2 ∧ ((s.add .true).2.add .true).1 = 4 := by
  decide

end Section

end ScriptLang
