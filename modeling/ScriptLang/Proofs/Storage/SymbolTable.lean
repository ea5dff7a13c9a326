import ScriptLang.Proofs.Storage.Section
import ScriptLang.Storage.SymbolTable

/-!
# Histories of the symbol table

A table is used by adding identifiers, freeing slots, looking identifiers up and asking for
constants, in any order.  `Acts` says what one such operation does to one section; it works on at
most one.  An occupied slot stays occupied until it is freed (`isLive_after`), and an addition takes
a free slot or a new one, so it never hands out a slot that is in use.

* `sound_after`: in every section the slots have their place and class, and the cursor is not past
  the end.
* `occupied_after`: the occupied slots are those taken and not freed.
* **The slots of a history** (`slots_after`).  All of this, for every table that a program can
  make.
-/

namespace ScriptLang.SymbolTable

/-- What is done to a symbol table. -/
inductive Operation where
  | add (kind : SectionKind) (id : Identifier)
  | free (kind : SectionKind) (index : Nat)
  | lookup (id : Identifier)
  | constant (index : Nat)
  deriving DecidableEq, Repr

namespace Operation

/-- The table after an operation. -/
def apply : Operation → SymbolTable → SymbolTable
  | add kind id, t => (t.add kind id).2
  | free kind index, t => (t.free kind index).2
  | lookup _, t => t
  | constant index, t => (t.constant index).2

/-- The section an operation works on. -/
def kind? : Operation → Option SectionKind
  | add kind _ | free kind _ => some kind
  | lookup _ => none
  | constant _ => some .constant

/-- Whether an operation occupies a slot of a section that was free: it adds something, or it asks
for a constant that is not in use. -/
def occupies (kind : SectionKind) (t : SymbolTable) : Operation → Bool
  | add k id => k = kind && id != .free
  | constant index => kind = .constant && t.constants.isVacant index
  | _ => false

/-- Whether an operation frees a slot of a section that was occupied. -/
def vacates (kind : SectionKind) (t : SymbolTable) : Operation → Bool
  | free k index => k = kind && (t.free k index).1
  | _ => false

end Operation

/-- The table after a history. -/
def after (t : SymbolTable) (ops : List Operation) : SymbolTable :=
  ops.foldl (fun t op => op.apply t) t

/-- How many operations of a history, each with the table it is applied to, are such as `p` says. -/
def tally (p : SymbolTable → Operation → Bool) : SymbolTable → List Operation → Nat
  | _, [] => 0
  | t, op :: ops => (if p t op then 1 else 0) + tally p (op.apply t) ops

/-- No addition returns the slot before it is freed. -/
def Reserved (kind : SectionKind) (index : Nat) (t : SymbolTable) : Prop :=
  ∀ later, .free kind index ∉ later → ∀ id, ((t.after later).add kind id).1 ≠ index

/-- The slots of a section that are occupied from the start: all registers of the machine and the
three constants. -/
def seeded : SectionKind → Nat
  | .register => 8
  | .memory => 0
  | .constant => 3

variable {t : SymbolTable} {kind k : SectionKind} {op : Operation} {i : Nat}

/-! ### One section -/

theorem get_set_self (t : SymbolTable) (kind : SectionKind) (s : Section) :
    (t.set kind s).get kind = s := by
  cases kind <;> rfl

theorem get_set_of_ne (h : k ≠ kind) (t : SymbolTable) (s : Section) :
    (t.set kind s).get k = t.get k := by
  cases kind <;> cases k <;> first | rfl | exact absurd rfl h

/-- What an operation does to the section `s` of a kind. -/
inductive Acts (kind : SectionKind) (s : Section) : Operation → Section → Prop where
  | add (id : Identifier) : Acts kind s (.add kind id) (s.add id).2
  | free (index : Nat) : Acts kind s (.free kind index) (s.free index).2
  | claim (index : Nat) (hk : kind = .constant) : Acts kind s (.constant index) (s.claim index).2
  | other {op : Operation} (hk : op.kind? ≠ some kind) : Acts kind s op s

/-- **One operation** acts on the section it names by the operation of that section, and on no
other. -/
theorem acts_apply (kind : SectionKind) (op : Operation) (t : SymbolTable) :
    Acts kind (t.get kind) op ((op.apply t).get kind) := by
  by_cases hk : op.kind? = some kind
  · cases op with
    | add k id =>
        obtain rfl : k = kind := Option.some.inj hk
        rw [Operation.apply, SymbolTable.add, get_set_self]
        exact .add id
    | free k index =>
        obtain rfl : k = kind := Option.some.inj hk
        rw [Operation.apply, SymbolTable.free, get_set_self]
        exact .free index
    | lookup => cases hk
    | constant index =>
        obtain rfl : .constant = kind := Option.some.inj hk
        exact .claim index rfl
  · have hsame : (op.apply t).get kind = t.get kind := by
      cases op with
      | add k id => exact get_set_of_ne (fun h => hk (by rw [h]; rfl)) t _
      | free k index => exact get_set_of_ne (fun h => hk (by rw [h]; rfl)) t _
      | lookup => rfl
      | constant index =>
          have hne : kind ≠ .constant := fun h => hk (by rw [h]; rfl)
          exact get_set_of_ne hne t (t.constants.claim index).2
    rw [hsame]
    exact .other hk

/-! ### Slots in their place -/

/-- Every section has its class and is sound. -/
def Sound (t : SymbolTable) : Prop :=
  ∀ kind, (t.get kind).storage = kind.storage ∧ (t.get kind).Sound

/-- **One operation** keeps the slots in their place. -/
theorem Sound.apply (h : t.Sound) (op : Operation) : (op.apply t).Sound := by
  intro kind
  obtain ⟨hstorage, hsound⟩ := h kind
  have hacts := acts_apply kind op t
  generalize (op.apply t).get kind = s at hacts ⊢
  cases hacts with
  | add id =>
      have hadd := (t.get kind).added_add id
      exact ⟨hadd.storage.trans hstorage, hadd.sound hsound⟩
  | free index =>
      have hfree := (t.get kind).freed_free index
      exact ⟨hfree.storage.trans hstorage, hfree.sound hsound⟩
  | claim index =>
      have hclaim := (t.get kind).claimed_claim index
      exact ⟨hclaim.storage.trans hstorage, hclaim.sound hsound⟩
  | other => exact ⟨hstorage, hsound⟩

/-- **A history** does, too. -/
theorem sound_after (h : t.Sound) (ops : List Operation) : (t.after ops).Sound := by
  induction ops generalizing t with
  | nil => exact h
  | cons op ops ih => exact ih (h.apply op)

/-- The table that nothing was added to. -/
def vacant : SymbolTable :=
  { registers := .ofSize .register sectionSize
    memory := .ofSize .memory sectionSize
    constants := .ofSize .constant sectionSize }

/-- The table at the start has a history of its own. -/
theorem initial_eq : initial = vacant.after
    ([.add .constant .true, .add .constant .false, .add .constant .nil] ++
      List.replicate registerCount (.add .register .nameless)) := rfl

/-- The table at the start was filled by additions, so every slot has its place. -/
theorem sound_initial : initial.Sound := by
  have hvacant : vacant.Sound := by
    intro kind
    cases kind <;> exact ⟨rfl, Section.sound_ofSize _ _⟩
  rw [initial_eq]
  exact sound_after hvacant _

/-! ### Occupied slots -/

/-- **One operation** leaves a slot occupied that it does not free. -/
theorem isLive_apply (h : (t.get kind).isLive i) (hop : op ≠ .free kind i) :
    ((op.apply t).get kind).isLive i := by
  have hacts := acts_apply kind op t
  generalize (op.apply t).get kind = s at hacts ⊢
  cases hacts with
  | add id => exact (((t.get kind).added_add id).isLive h).2
  | free index =>
      have hne : i ≠ index := by
        rintro rfl
        exact hop rfl
      exact ((t.get kind).freed_free index).isLive hne h
  | claim index => exact ((t.get kind).claimed_claim index).isLive h
  | other => exact h

/-- **A history** does, too. -/
theorem isLive_after {ops : List Operation} (h : (t.get kind).isLive i)
    (hops : .free kind i ∉ ops) : ((t.after ops).get kind).isLive i := by
  induction ops generalizing t with
  | nil => exact h
  | cons op ops ih =>
      rw [List.mem_cons, not_or] at hops
      exact ih (isLive_apply h (Ne.symm hops.1)) hops.2

/-- What is in use is not handed out. -/
theorem reserved_of_isLive (h : (t.get kind).isLive i) : t.Reserved kind i := by
  intro later hlater id
  have hlive := isLive_after h hlater
  exact Ne.symm ((((t.after later).get kind).added_add id).isLive hlive).1

/-- **A slot that was added is not handed out** before it is freed. -/
theorem reserved_add {id : Identifier} (hid : id ≠ .free) (t : SymbolTable) (kind : SectionKind) :
    (t.add kind id).2.Reserved kind (t.add kind id).1 := by
  refine reserved_of_isLive ?_
  rw [add, get_set_self]
  exact ((t.get kind).added_add id).isLive_self hid

/-- The same for a constant that was claimed. -/
theorem reserved_constant {index : Nat} (h : index < t.constants.capacity) :
    (t.constant index).2.Reserved .constant index :=
  reserved_of_isLive ((t.constants.claimed_claim index).isLive_self h)

/-! ### How many slots are occupied -/

/-- **One operation** changes the number of occupied slots as it occupies one or frees one. -/
theorem occupied_apply (kind : SectionKind) (op : Operation) (t : SymbolTable) :
    ((op.apply t).get kind).occupied + (if op.vacates kind t then 1 else 0) =
      (t.get kind).occupied + if op.occupies kind t then 1 else 0 := by
  have hacts := acts_apply kind op t
  generalize (op.apply t).get kind = s at hacts ⊢
  cases hacts with
  | add id =>
      rw [Section.occupied_add]
      by_cases hid : id = .free <;> simp [Operation.vacates, Operation.occupies, hid]
  | free index =>
      have hvacates : (Operation.free kind index).vacates kind t = ((t.get kind).free index).1 := by
        simp [Operation.vacates, free]
      rw [hvacates]
      exact (t.get kind).occupied_free index
  | claim index hk =>
      subst hk
      have hoccupies : (Operation.constant index).occupies .constant t =
          t.constants.isVacant index := by
        simp [Operation.occupies]
      rw [hoccupies]
      exact t.constants.occupied_claim index
  | other hk =>
      have hnone : op.vacates kind t = false ∧ op.occupies kind t = false := by
        cases op <;> simp_all [Operation.vacates, Operation.occupies, Operation.kind?, eq_comm]
      rw [hnone.1, hnone.2]

/-- **A history** has occupied what it took and did not free. -/
theorem occupied_after (kind : SectionKind) (ops : List Operation) (t : SymbolTable) :
    ((t.after ops).get kind).occupied + tally (Operation.vacates kind) t ops =
      (t.get kind).occupied + tally (Operation.occupies kind) t ops := by
  induction ops generalizing t with
  | nil => rfl
  | cons op ops ih =>
      have hop := occupied_apply kind op t
      have hops := ih (op.apply t)
      simp only [tally]
      change ((after (op.apply t) ops).get kind).occupied + _ = _
      omega

theorem occupied_initial (kind : SectionKind) : (initial.get kind).occupied = seeded kind := by
  cases kind <;> rfl

/-! ### All histories -/

/-- **The slots of a history.**  Whatever was done to a table from the start on:

* In each section the slots have their place and class, and the cursor is not past the end.
* An addition takes a free slot, or the first of two new ones if there is none, and changes nothing
  else in any section.
* A release says whether the slot was occupied and clears only that one.
* Asking for a constant gives one unless it is past the end, and changes it only from free to
  nameless.
* What was added, or was asked for as a constant, keeps its slot until the slot is freed.
* As many slots are occupied as were at the start and were taken since, less those freed. -/
theorem slots_after (ops : List Operation) :
    let t := initial.after ops
    (∀ kind, (t.get kind).cursor ≤ (t.get kind).capacity ∧
      ∀ i v, (t.get kind).get? i = some v → v.index = i ∧ v.storage = kind.storage) ∧
    (∀ kind id, (t.get kind).Added id (t.add kind id).1 ((t.add kind id).2.get kind) ∧
      ∀ k, k ≠ kind → (t.add kind id).2.get k = t.get k) ∧
    (∀ kind index,
      (t.get kind).Freed index (t.free kind index).1 ((t.free kind index).2.get kind) ∧
      ∀ k, k ≠ kind → (t.free kind index).2.get k = t.get k) ∧
    (∀ index, t.constants.Claimed index (t.constant index).1 (t.constant index).2.constants ∧
      ∀ k, k ≠ .constant → (t.constant index).2.get k = t.get k) ∧
    (∀ kind id, id ≠ .free → (t.add kind id).2.Reserved kind (t.add kind id).1) ∧
    (∀ index, index < t.constants.capacity → (t.constant index).2.Reserved .constant index) ∧
    ∀ kind, (t.get kind).occupied + tally (Operation.vacates kind) initial ops =
      seeded kind + tally (Operation.occupies kind) initial ops := by
  intro t
  have hsound : t.Sound := sound_after sound_initial ops
  refine ⟨fun kind => ?_, fun kind id => ?_, fun kind index => ?_, fun index => ?_,
    fun kind id hid => reserved_add hid t kind, fun index => reserved_constant, fun kind => ?_⟩
  · obtain ⟨hstorage, hslots⟩ := hsound kind
    exact ⟨hslots.cursor, fun i v hv => hstorage ▸ hslots.slot i v hv⟩
  · refine ⟨?_, fun k hk => get_set_of_ne hk t _⟩
    rw [add, get_set_self]
    exact (t.get kind).added_add id
  · refine ⟨?_, fun k hk => get_set_of_ne hk t _⟩
    rw [free, get_set_self]
    exact (t.get kind).freed_free index
  · exact ⟨t.constants.claimed_claim index, fun k hk =>
      get_set_of_ne hk t (t.constants.claim index).2⟩
  · rw [← occupied_initial]
    exact occupied_after kind ops initial

end ScriptLang.SymbolTable
