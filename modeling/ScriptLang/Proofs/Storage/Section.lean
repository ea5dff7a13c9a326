import ScriptLang.Storage.Section

/-!
# The slots of a section

A section is a row of slots, each free or occupied.  Three things are done to it, and each is
described by the slots before and after: an addition (`Added`), a release (`Freed`) and a claim
(`Claimed`).  None of them changes more than the one slot it names, and what growth adds is free.

* `added_add`, `freed_free`, `claimed_claim`: the operations are as described.
* `Sound`: every slot has its place and the class of its section, and the cursor is not past the
  end.  `Added.sound` and its like: each of the operations keeps that.
* `Added.isLive`, `Freed.isLive`, `Claimed.isLive`: an occupied slot stays occupied unless it is the
  one that is freed.
* `occupied_add`, `occupied_free`, `occupied_claim`: how the number of occupied slots changes.
-/

namespace ScriptLang

/-! ### Rows of slots -/

namespace Variable

@[simp] theorem isFree_vacant (storage : StorageClass) (index : Nat) :
    (vacant storage index).isFree := rfl

theorem getElem?_vacantFrom {storage : StorageClass} {start count i : Nat} (h : i < count) :
    (vacantFrom storage start count)[i]? = some (vacant storage (start + i)) := by
  simp [vacantFrom, List.getElem?_range' h]

theorem occupied_append (a b : List Variable) : occupied (a ++ b) = occupied a + occupied b := by
  simp [occupied]

theorem occupied_vacantFrom (storage : StorageClass) (start count : Nat) :
    occupied (vacantFrom storage start count) = 0 := by
  have hnone : (vacantFrom storage start count).filter (fun v => !v.isFree) = [] := by
    rw [List.filter_eq_nil_iff]
    intro v hv
    obtain ⟨i, -, rfl⟩ := List.mem_map.mp hv
    simp
  rw [occupied, hnone]
  rfl

/-- A change of one slot changes the number of occupied ones by that slot. -/
theorem occupied_set {slots : List Variable} {i : Nat} {v : Variable} (h : slots[i]? = some v)
    (w : Variable) : occupied (slots.set i w) + (if v.isFree then 0 else 1) =
      occupied slots + (if w.isFree then 0 else 1) := by
  induction slots generalizing i with
  | nil => cases h
  | cons u slots ih =>
      cases i with
      | zero =>
          cases h
          cases hv : v.isFree <;> cases hw : w.isFree <;> simp [occupied, hv, hw]
      | succ i =>
          have ih := ih h
          cases hu : u.isFree <;> simp [occupied, hu] at ih ⊢ <;> omega

end Variable

namespace Section

variable {s s' : Section} {id : Identifier} {index i : Nat} {v : Variable}

/-- Whether there is a slot at a place and something occupies it. -/
def isLive (s : Section) (i : Nat) : Bool := (s.get? i).any fun v => !v.isFree

/-- Whether there is a slot at a place and nothing occupies it. -/
def isVacant (s : Section) (i : Nat) : Bool := (s.get? i).any Variable.isFree

theorem isLive_iff : s.isLive i ↔ ∃ v, s.get? i = some v ∧ v.isFree = false := by
  simp [isLive, Option.any_eq_true]

theorem isVacant_iff : s.isVacant i ↔ ∃ v, s.get? i = some v ∧ v.isFree := by
  simp [isVacant, Option.any_eq_true]

theorem get?_eq_none_iff : s.get? i = none ↔ s.capacity ≤ i := List.getElem?_eq_none_iff

theorem lt_capacity (h : s.get? i = some v) : i < s.capacity := (List.getElem?_eq_some_iff.mp h).1

/-- Every slot has its place and the class of the section, and the cursor is not past the end. -/
structure Sound (s : Section) : Prop where
  slot : ∀ i v, s.get? i = some v → v.index = i ∧ v.storage = s.storage
  cursor : s.cursor ≤ s.capacity

theorem sound_ofSize (storage : StorageClass) (size : Nat) : (ofSize storage size).Sound := by
  refine ⟨fun i v h => ?_, Nat.zero_le _⟩
  have hlt : i < size := by simpa [ofSize, capacity, Variable.vacantFrom] using lt_capacity h
  have hslot : (ofSize storage size).get? i = some (.vacant storage (0 + i)) :=
    Variable.getElem?_vacantFrom hlt
  rw [h] at hslot
  cases hslot
  exact ⟨Nat.zero_add i, rfl⟩

/-! ### Additions -/

/-- What an addition does that takes the slot `index`.  The slot was free, or none was and two were
added; it holds the identifier now, and the other slots are as they were. -/
structure Added (s : Section) (id : Identifier) (index : Nat) (s' : Section) : Prop where
  place : s.isVacant index ∧ s'.capacity = s.capacity ∨
    (∀ i, ¬ s.isVacant i) ∧ index = s.capacity ∧ s'.capacity = s.capacity + 2
  slot : s'.get? index = some { identifier := id, storage := s.storage, index := index }
  others : ∀ i, i ≠ index → i < s.capacity → s'.get? i = s.get? i
  grown : ∀ i, i ≠ index → s.capacity ≤ i → i < s'.capacity →
    s'.get? i = some (.vacant s.storage i)
  storage : s'.storage = s.storage
  cursor : s'.cursor = index + 1

@[simp] theorem capacity_fill (s : Section) (index : Nat) (id : Identifier) :
    (s.fill index id).capacity = s.capacity := by
  simp [capacity, fill]

@[simp] theorem capacity_grow (s : Section) : s.grow.capacity = s.capacity + 2 := by
  simp [capacity, grow, Variable.vacantFrom, storageStep]

theorem get?_fill_self (h : index < s.capacity) (id : Identifier) :
    (s.fill index id).get? index =
      some { identifier := id, storage := s.storage, index := index } :=
  List.getElem?_set_self h

theorem get?_fill_of_ne (h : i ≠ index) (s : Section) (id : Identifier) :
    (s.fill index id).get? i = s.get? i :=
  List.getElem?_set_ne (Ne.symm h)

theorem get?_grow_of_lt (h : i < s.capacity) : s.grow.get? i = s.get? i :=
  List.getElem?_append_left h

theorem get?_grow_of_le (h : s.capacity ≤ i) (hi : i < s.capacity + 2) :
    s.grow.get? i = some (.vacant s.storage i) := by
  have hslot : s.grow.get? i = some (.vacant s.storage (s.capacity + (i - s.capacity))) :=
    (List.getElem?_append_right h).trans
      (Variable.getElem?_vacantFrom (Nat.sub_lt_left_of_lt_add h hi))
  rwa [Nat.add_sub_cancel' h] at hslot

theorem isVacant_of_hole? (h : s.hole? = some index) : s.isVacant index := by
  rw [isVacant_iff]
  unfold hole? at h
  split at h
  next k hk =>
    cases h
    obtain ⟨hlt, hfree, -⟩ := List.findIdx?_eq_some_iff_getElem.mp hk
    refine ⟨_, ?_, hfree⟩
    rw [get?, ← List.getElem?_drop, List.getElem?_eq_getElem hlt]
  next =>
    obtain ⟨hlt, hfree, -⟩ := List.findIdx?_eq_some_iff_getElem.mp h
    rw [List.getElem_take] at hfree
    exact ⟨_, List.getElem?_eq_getElem (Nat.lt_of_lt_of_le hlt (List.length_take_le' ..)), hfree⟩

/-- The search for a free slot goes over all slots. -/
theorem not_isVacant_of_hole? (h : s.hole? = none) (i : Nat) : ¬ s.isVacant i := by
  rw [isVacant_iff]
  rintro ⟨v, hv, hfree⟩
  unfold hole? at h
  split at h
  next => cases h
  next hdrop =>
    have hmem := List.mem_of_getElem? hv
    rw [← List.take_append_drop s.cursor s.slots, List.mem_append] at hmem
    rw [List.findIdx?_eq_none_iff] at h hdrop
    rcases hmem with hmem | hmem
    · rw [h v hmem] at hfree
      cases hfree
    · rw [hdrop v hmem] at hfree
      cases hfree

/-- **Additions are as described.** -/
theorem added_add (s : Section) (id : Identifier) : s.Added id (s.add id).1 (s.add id).2 := by
  unfold add
  cases hhole : s.hole? with
  | some index =>
      have hvacant := isVacant_of_hole? hhole
      obtain ⟨v, hv, -⟩ := isVacant_iff.mp hvacant
      exact {
        place := .inl ⟨hvacant, capacity_fill ..⟩
        slot := get?_fill_self (lt_capacity hv) id
        others := fun i hi _ => get?_fill_of_ne hi s id
        grown := fun i _ hle hlt => absurd hlt (Nat.not_lt_of_le (by simpa using hle))
        storage := rfl
        cursor := rfl }
  | none =>
      exact {
        place := .inr ⟨not_isVacant_of_hole? hhole, rfl, by simp⟩
        slot := get?_fill_self (by simp) id
        others := fun i hi hlt => (get?_fill_of_ne hi s.grow id).trans (get?_grow_of_lt hlt)
        grown := fun i hi hle hlt =>
          (get?_fill_of_ne hi s.grow id).trans (get?_grow_of_le hle (by simpa using hlt))
        storage := rfl
        cursor := rfl }

/-- An addition writes the place and the class of its section into the slot it takes. -/
theorem Added.sound (h : s.Added id index s') (hs : s.Sound) : s'.Sound := by
  refine ⟨fun i v hv => ?_, ?_⟩
  · rw [h.storage]
    by_cases hi : i = index
    · subst hi
      rw [h.slot] at hv
      cases hv
      exact ⟨rfl, rfl⟩
    · by_cases hlt : i < s.capacity
      · rw [h.others i hi hlt] at hv
        exact hs.slot i v hv
      · rw [h.grown i hi (Nat.le_of_not_lt hlt) (lt_capacity hv)] at hv
        cases hv
        exact ⟨rfl, rfl⟩
  · rw [h.cursor]
    exact lt_capacity h.slot

/-- An addition does not take an occupied slot, and leaves it occupied. -/
theorem Added.isLive (h : s.Added id index s') (hi : s.isLive i) :
    i ≠ index ∧ s'.isLive i := by
  obtain ⟨v, hv, hfree⟩ := isLive_iff.mp hi
  have hne : i ≠ index := by
    rintro rfl
    rcases h.place with ⟨hvacant, -⟩ | ⟨-, rfl, -⟩
    · obtain ⟨w, hw, hfree'⟩ := isVacant_iff.mp hvacant
      rw [hv] at hw
      cases hw
      rw [hfree] at hfree'
      cases hfree'
    · exact absurd (lt_capacity hv) (Nat.lt_irrefl _)
  exact ⟨hne, isLive_iff.mpr ⟨v, (h.others i hne (lt_capacity hv)).trans hv, hfree⟩⟩

/-- The slot that an identifier is added in is occupied. -/
theorem Added.isLive_self (h : s.Added id index s') (hid : id ≠ .free) : s'.isLive index :=
  isLive_iff.mpr ⟨_, h.slot, by simpa [Variable.isFree] using hid⟩

/-- Filling a free slot occupies one more, unless it is filled with `free`. -/
theorem occupied_fill (h : s.isVacant index) (id : Identifier) :
    (s.fill index id).occupied = s.occupied + if id = .free then 0 else 1 := by
  obtain ⟨v, hv, hfree⟩ := isVacant_iff.mp h
  have hset := Variable.occupied_set hv { identifier := id, storage := s.storage, index := index }
  rw [if_pos hfree] at hset
  simpa [occupied, fill, Variable.isFree] using hset

/-- Growth occupies nothing. -/
theorem occupied_grow (s : Section) : s.grow.occupied = s.occupied := by
  simp [occupied, grow, Variable.occupied_append, Variable.occupied_vacantFrom]

/-- An addition occupies one slot more, unless what it adds is `free`. -/
theorem occupied_add (s : Section) (id : Identifier) :
    (s.add id).2.occupied = s.occupied + if id = .free then 0 else 1 := by
  unfold add
  cases hhole : s.hole? with
  | some index => exact occupied_fill (isVacant_of_hole? hhole) id
  | none =>
      have hvacant : s.grow.isVacant s.capacity :=
        isVacant_iff.mpr ⟨_, get?_grow_of_le (Nat.le_refl _) (by omega), rfl⟩
      exact (occupied_fill hvacant id).trans (by rw [occupied_grow])

/-! ### Releases -/

/-- What a release of the slot `index` does.  It answers whether something occupied the slot, which
is free now; the other slots are as they were. -/
structure Freed (s : Section) (index : Nat) (freed : Bool) (s' : Section) : Prop where
  answer : freed = s.isLive index
  slot : s.isLive index → s'.get? index = some (.vacant s.storage index)
  kept : ¬ s.isLive index → s' = s
  others : ∀ i, i ≠ index → s'.get? i = s.get? i
  storage : s'.storage = s.storage
  capacity : s'.capacity = s.capacity
  cursor : s'.cursor ≤ s.cursor

/-- A release of an occupied slot, and of no other, changes something. -/
theorem free_eq (s : Section) (index : Nat) :
    s.free index = if s.isLive index then
      (true, { s with
        slots := s.slots.set index (.vacant s.storage index), cursor := min s.cursor index })
      else (false, s) := by
  unfold free isLive get?
  cases s.slots[index]? with
  | none => rfl
  | some v => cases hv : v.isFree <;> simp [hv]

/-- **Releases are as described.** -/
theorem freed_free (s : Section) (index : Nat) :
    s.Freed index (s.free index).1 (s.free index).2 := by
  rw [free_eq]
  by_cases hlive : s.isLive index
  · obtain ⟨v, hv, -⟩ := isLive_iff.mp hlive
    rw [if_pos hlive]
    exact {
      answer := hlive.symm
      slot := fun _ => List.getElem?_set_self (lt_capacity hv)
      kept := fun h => absurd hlive h
      others := fun i hi => List.getElem?_set_ne (Ne.symm hi)
      storage := rfl
      capacity := List.length_set
      cursor := Nat.min_le_left _ _ }
  · rw [if_neg hlive]
    exact {
      answer := by simpa using hlive
      slot := fun h => absurd h hlive
      kept := fun _ => rfl
      others := fun _ _ => rfl
      storage := rfl
      capacity := rfl
      cursor := Nat.le_refl _ }

/-- A release leaves every slot its place. -/
theorem Freed.sound {freed : Bool} (h : s.Freed index freed s') (hs : s.Sound) : s'.Sound := by
  refine ⟨fun i v hv => ?_, h.capacity ▸ Nat.le_trans h.cursor hs.cursor⟩
  rw [h.storage]
  by_cases hlive : s.isLive index
  · by_cases hi : i = index
    · subst hi
      rw [h.slot hlive] at hv
      cases hv
      exact ⟨rfl, rfl⟩
    · exact hs.slot i v (h.others i hi ▸ hv)
  · exact hs.slot i v (h.kept hlive ▸ hv)

/-- A release leaves the other occupied slots occupied. -/
theorem Freed.isLive {freed : Bool} (h : s.Freed index freed s') (hne : i ≠ index)
    (hi : s.isLive i) : s'.isLive i := by
  rw [Section.isLive, h.others i hne]
  exact hi

/-- A release that succeeds leaves one slot less occupied. -/
theorem occupied_free (s : Section) (index : Nat) :
    (s.free index).2.occupied + (if (s.free index).1 then 1 else 0) = s.occupied := by
  rw [free_eq]
  by_cases hlive : s.isLive index
  · obtain ⟨v, hv, hfree⟩ := isLive_iff.mp hlive
    have hset := Variable.occupied_set hv (.vacant s.storage index)
    rw [hfree] at hset
    rw [if_pos hlive]
    exact hset
  · rw [if_neg hlive]
    rfl

/-! ### Claims -/

/-- What a claim of the slot `index` does.  It answers with the slot if there is one, which has
become occupied without a name if it was free; the other slots are as they were. -/
structure Claimed (s : Section) (index : Nat) (answer : Option Variable) (s' : Section) : Prop where
  none_iff : answer = none ↔ s.capacity ≤ index
  answer : answer = s'.get? index
  slot : s'.get? index = s.get? index ∧ ¬ s.isVacant index ∨ s.isVacant index ∧
    s'.get? index = (s.get? index).map fun v => { v with identifier := .nameless }
  others : ∀ i, i ≠ index → s'.get? i = s.get? i
  storage : s'.storage = s.storage
  capacity : s'.capacity = s.capacity
  cursor : s'.cursor = s.cursor

/-- A claim stamps a free slot and answers with it. -/
theorem claim_of_isVacant (h : s.isVacant index) : ∃ v, s.get? index = some v ∧ v.isFree ∧
    s.claim index = (some { v with identifier := .nameless },
      { s with slots := s.slots.set index { v with identifier := .nameless } }) := by
  obtain ⟨v, hv, hfree⟩ := isVacant_iff.mp h
  refine ⟨v, hv, hfree, ?_⟩
  rw [get?] at hv
  simp only [claim, hv, if_pos hfree]

/-- A claim of a slot in use answers with that slot, and one past the end has no answer.  Neither
changes anything. -/
theorem claim_of_not_isVacant (h : ¬ s.isVacant index) : s.claim index = (s.get? index, s) := by
  unfold isVacant get? at h
  unfold claim get?
  cases hv : s.slots[index]? with
  | none => rfl
  | some v =>
      have hfree : ¬ v.isFree := by simpa [hv] using h
      have hset : s.slots.set index v = s.slots := by
        obtain ⟨hlt, rfl⟩ := List.getElem?_eq_some_iff.mp hv
        exact List.set_getElem_self hlt
      simp only [if_neg hfree, hset]

/-- **Claims are as described.** -/
theorem claimed_claim (s : Section) (index : Nat) :
    s.Claimed index (s.claim index).1 (s.claim index).2 := by
  by_cases h : s.isVacant index
  · obtain ⟨v, hv, -, hclaim⟩ := claim_of_isVacant h
    have hlt := lt_capacity hv
    have hslot := List.getElem?_set_self (a := { v with identifier := .nameless }) hlt
    rw [hclaim]
    exact {
      none_iff := ⟨fun h => (nomatch h), fun h => absurd hlt (Nat.not_lt_of_le h)⟩
      answer := hslot.symm
      slot := .inr ⟨h, by rw [hv]; exact hslot⟩
      others := fun i hi => List.getElem?_set_ne (Ne.symm hi)
      storage := rfl
      capacity := List.length_set
      cursor := rfl }
  · rw [claim_of_not_isVacant h]
    exact {
      none_iff := get?_eq_none_iff
      answer := rfl
      slot := .inl ⟨rfl, h⟩
      others := fun _ _ => rfl
      storage := rfl
      capacity := rfl
      cursor := rfl }

/-- A claim leaves every slot its place. -/
theorem Claimed.sound {answer : Option Variable} (h : s.Claimed index answer s') (hs : s.Sound) :
    s'.Sound := by
  refine ⟨fun i v hv => ?_, by rw [h.cursor, h.capacity]; exact hs.cursor⟩
  rw [h.storage]
  by_cases hi : i = index
  · subst hi
    rcases h.slot with ⟨hsame, -⟩ | ⟨-, hstamped⟩
    · exact hs.slot i v (hsame ▸ hv)
    · rw [hstamped] at hv
      obtain ⟨w, hw, rfl⟩ := Option.map_eq_some_iff.mp hv
      exact hs.slot i w hw
  · exact hs.slot i v (h.others i hi ▸ hv)

/-- A slot that is claimed is occupied. -/
theorem Claimed.isLive_self {answer : Option Variable} (h : s.Claimed index answer s')
    (hlt : index < s.capacity) : s'.isLive index := by
  obtain ⟨v, hv⟩ : ∃ v, s.get? index = some v := ⟨_, List.getElem?_eq_getElem hlt⟩
  rw [isLive_iff]
  rcases h.slot with ⟨hsame, hvacant⟩ | ⟨-, hstamped⟩
  · refine ⟨v, hsame.trans hv, ?_⟩
    simpa [isVacant, hv] using hvacant
  · exact ⟨_, hstamped.trans (by rw [hv]; rfl), rfl⟩

/-- A claim leaves occupied slots occupied. -/
theorem Claimed.isLive {answer : Option Variable} (h : s.Claimed index answer s')
    (hi : s.isLive i) : s'.isLive i := by
  by_cases hne : i = index
  · subst hne
    obtain ⟨v, hv, -⟩ := isLive_iff.mp hi
    exact h.isLive_self (lt_capacity hv)
  · rw [Section.isLive, h.others i hne]
    exact hi

/-- A claim of a free slot leaves one slot more occupied. -/
theorem occupied_claim (s : Section) (index : Nat) :
    (s.claim index).2.occupied = s.occupied + if s.isVacant index then 1 else 0 := by
  by_cases h : s.isVacant index
  · obtain ⟨v, hv, hfree, hclaim⟩ := claim_of_isVacant h
    have hset := Variable.occupied_set hv { v with identifier := .nameless }
    rw [if_pos hfree] at hset
    rw [hclaim, if_pos h]
    exact hset
  · rw [claim_of_not_isVacant h, if_neg h]
    rfl

end Section

end ScriptLang
