import Mathlib.Data.List.Induction
import Mathlib.Order.Bounds.Basic
import ScriptLang.Proofs.Machine.Footprint

/-!
# The ids of functions

Functions are added to a machine and removed from it, and code runs in between, in any order.  The
log of such a history says what became of the functions: which id each addition returned for its
code, and which ids were removed.  By its log alone a function is live (`Live`) if its id was
returned for its code and nothing has been done with that id since.

The table holds just the live functions, and every addition takes an id that is not live.  Together
this is `Keeps`, which each operation preserves; running code does not touch the table.

* `FunctionTable.isLeast_add`, `FunctionTable.get?_add`, `FunctionTable.remove?_eq_some`: what an
  addition and a removal do to the table, read at every id.
* `Keeps.apply`, `keeps_afterAll`: one operation, and a history.
* **Ids of functions** (`functions_afterAll`).
-/

namespace ScriptLang

/-! ### The table -/

namespace FunctionTable

variable {t t' : FunctionTable} {id other : Nat} {code : Code}

theorem get?_eq_none_of_length_le (h : t.slots.length ≤ id) : t.get? id = none := by
  rw [get?, List.getElem?_eq_none h]
  rfl

theorem get?_of_slot {slot : Option Code} (h : t.slots[id]? = some slot) : t.get? id = slot := by
  rw [get?, h]
  rfl

/-- The hole that an addition fills has no function, and all ids before it have one. -/
theorem isLeast_of_hole (h : t.slots.findIdx? Option.isNone = some id) :
    IsLeast {id | t.get? id = none} id := by
  obtain ⟨hlt, hhole, hbefore⟩ := List.findIdx?_eq_some_iff_getElem.mp h
  refine ⟨?_, fun other hother => ?_⟩
  · exact get?_of_slot (by rw [List.getElem?_eq_getElem hlt, Option.isNone_iff_eq_none.mp hhole])
  · by_contra hless
    have hother' : t.slots[other]? = some _ :=
      List.getElem?_eq_getElem (Nat.lt_trans (Nat.lt_of_not_le hless) hlt)
    have hnone := (get?_of_slot hother').symm.trans hother
    exact hbefore other (Nat.lt_of_not_le hless) (Option.isNone_iff_eq_none.mpr hnone)

/-- Without a hole the first id past the end is the first without a function. -/
theorem isLeast_of_full (h : t.slots.findIdx? Option.isNone = none) :
    IsLeast {id | t.get? id = none} t.slots.length := by
  refine ⟨get?_eq_none_of_length_le (Nat.le_refl _), fun other hother => ?_⟩
  by_contra hless
  obtain ⟨slot, hslot⟩ : ∃ slot, t.slots[other]? = some slot :=
    ⟨_, List.getElem?_eq_getElem (Nat.lt_of_not_le hless)⟩
  have hfull := List.findIdx?_eq_none_iff.mp h slot (List.mem_of_getElem? hslot)
  rw [(get?_of_slot hslot).symm.trans hother] at hfull
  cases hfull

/-- **An addition returns the least id** that is not in use. -/
theorem isLeast_add (t : FunctionTable) (code : Code) :
    IsLeast {id | t.get? id = none} (t.add code).1 := by
  unfold add
  cases hhole : t.slots.findIdx? Option.isNone with
  | some hole => exact isLeast_of_hole hhole
  | none => exact isLeast_of_full hhole

/-- A new function is under its id, and the others stay where they were. -/
theorem get?_add (t : FunctionTable) (code : Code) (other : Nat) :
    (t.add code).2.get? other = if other = (t.add code).1 then some code else t.get? other := by
  unfold add
  cases hhole : t.slots.findIdx? Option.isNone with
  | some hole =>
      obtain ⟨hlt, -, -⟩ := List.findIdx?_eq_some_iff_getElem.mp hhole
      by_cases hid : other = hole
      · subst hid
        rw [if_pos rfl]
        exact get?_of_slot (List.getElem?_set_self hlt)
      · rw [if_neg hid, get?, get?, List.getElem?_set_ne (Ne.symm hid)]
  | none =>
      rcases Nat.lt_trichotomy other t.slots.length with hlt | rfl | hgt
      · rw [if_neg (Nat.ne_of_lt hlt), get?, get?, List.getElem?_append_left hlt]
      · rw [if_pos rfl]
        exact get?_of_slot List.getElem?_concat_length
      · rw [if_neg (Nat.ne_of_gt hgt), get?_eq_none_of_length_le (Nat.le_of_lt hgt)]
        exact get?_eq_none_of_length_le (by simpa using Nat.succ_le_of_lt hgt)

/-- Nothing can be removed where there is no function. -/
theorem remove?_eq_none (h : t.get? id = none) : t.remove? id = none := by
  rw [remove?, h]
  rfl

/-- A removal gives the body that was there and makes a hole of its id. -/
theorem remove?_eq_some (h : t.get? id = some code) :
    ∃ t', t.remove? id = some (code, t') ∧
      ∀ other, t'.get? other = if other = id then none else t.get? other := by
  have hlt : id < t.slots.length := by
    by_contra hle
    rw [get?_eq_none_of_length_le (Nat.le_of_not_lt hle)] at h
    cases h
  refine ⟨{ slots := t.slots.set id none }, by rw [remove?, h]; rfl, fun other => ?_⟩
  by_cases hid : other = id
  · subst hid
    rw [if_pos rfl]
    exact get?_of_slot (List.getElem?_set_self hlt)
  · rw [if_neg hid, get?, get?, List.getElem?_set_ne (Ne.symm hid)]

end FunctionTable

/-! ### Histories and their logs -/

namespace Machine

/-- What is done to a machine from outside. -/
inductive Operation where
  | add (code : Code)
  | remove (id : Nat)
  /-- Runs a function from its start, for at most so many ticks. -/
  | run (fuel function : Nat)
  /-- Runs on from the program counter, for at most so many ticks. -/
  | interpret (fuel : Nat)
  | step (i : Instruction)

/-- What became of a function. -/
inductive Entry where
  /-- The addition of `code` returned `id`. -/
  | added (id : Nat) (code : Code)
  | removed (id : Nat)
  deriving DecidableEq

/-- The function an entry is about. -/
def Entry.id : Entry → Nat
  | added id _ | removed id => id

namespace Operation

/-- The machine after an operation. -/
def apply : Operation → Machine → Machine
  | add code, m => (m.addFunction code).2
  | remove id, m => (removeFunction id m).2
  | run fuel function, m => (m.run fuel function).2
  | interpret fuel, m => (m.interpret fuel).2
  | step i, m => (Machine.step i m).2

/-- What an operation writes in the log.  A removal that fails writes nothing. -/
def entry? (m : Machine) : Operation → Option Entry
  | add code => some (.added (m.addFunction code).1 code)
  | remove id => (removeFunction id m).1.toOption.map fun _ => .removed id
  | _ => none

end Operation

/-- The machine after a history. -/
def afterAll (m : Machine) (ops : List Operation) : Machine :=
  ops.foldl (fun m op => op.apply m) m

/-- The log of a history. -/
def log : Machine → List Operation → List Entry
  | _, [] => []
  | m, op :: ops => (op.entry? m).toList ++ log (op.apply m) ops

/-- The id was returned for `code` and nothing has been done with it since. -/
def Live (log : List Entry) (id : Nat) (code : Code) : Prop :=
  ∃ earlier later, log = earlier ++ .added id code :: later ∧ ∀ e ∈ later, e.id ≠ id

variable {log : List Entry} {e : Entry} {id : Nat} {code : Code} {m : Machine}

/-- A place in a log with one more entry is that entry or a place in the log. -/
theorem place_of_concat {earlier later : List Entry} {e' : Entry}
    (h : log ++ [e] = earlier ++ e' :: later) :
    (log = earlier ∧ e = e') ∨ ∃ later', later = later' ++ [e] ∧ log = earlier ++ e' :: later' := by
  rcases List.eq_nil_or_concat later with rfl | ⟨later, last, rfl⟩
  · exact .inl (List.append_singleton_inj.mp h)
  · rw [List.concat_eq_append, ← List.cons_append, ← List.append_assoc] at h
    obtain ⟨hlog, rfl⟩ := List.append_singleton_inj.mp h
    exact .inr ⟨later, List.concat_eq_append, hlog⟩

/-- An entry makes its id live or ends its life, and says nothing of other ids. -/
theorem live_concat :
    Live (log ++ [e]) id code ↔ e = .added id code ∨ e.id ≠ id ∧ Live log id code := by
  constructor
  · rintro ⟨earlier, later, hlog, hlater⟩
    rcases place_of_concat hlog with ⟨-, rfl⟩ | ⟨later, rfl, rfl⟩
    · exact .inl rfl
    · rw [List.forall_mem_append] at hlater
      exact .inr ⟨hlater.2 e List.mem_cons_self, earlier, later, rfl, hlater.1⟩
  · rintro (rfl | ⟨hne, earlier, later, rfl, hlater⟩)
    · exact ⟨log, [], rfl, nofun⟩
    · refine ⟨earlier, later ++ [e], by simp, ?_⟩
      rw [List.forall_mem_append, List.forall_mem_singleton]
      exact ⟨hlater, hne⟩

/-- An id that was returned and not removed since is live, with whatever code. -/
theorem exists_live_of_not_removed (log : List Entry) (code : Code) {between : List Entry}
    (h : .removed id ∉ between) : ∃ c, Live (log ++ .added id code :: between) id c := by
  induction between using List.reverseRecOn with
  | nil => exact ⟨code, log, [], rfl, nofun⟩
  | append_singleton between last ih =>
      rw [List.mem_append, List.mem_singleton, not_or] at h
      rw [← List.cons_append, ← List.append_assoc]
      simp only [live_concat]
      by_cases hid : last.id = id
      · cases last with
        | added id' c =>
            obtain rfl : id' = id := hid
            exact ⟨c, .inl rfl⟩
        | removed id' =>
            obtain rfl : id' = id := hid
            exact absurd rfl h.2
      · obtain ⟨c, hc⟩ := ih h.1
        exact ⟨c, .inr ⟨hid, hc⟩⟩

/-! ### One operation -/

/-- The table holds the functions that are live by the log, and no addition of the log returned an
id that was live then. -/
structure Keeps (log : List Entry) (t : FunctionTable) : Prop where
  get? : ∀ id code, t.get? id = some code ↔ Live log id code
  fresh : ∀ earlier id code later, log = earlier ++ .added id code :: later →
    ∀ c, ¬ Live earlier id c

theorem keeps_empty : Keeps [] .empty := by
  refine ⟨fun id code => ⟨nofun, ?_⟩, fun earlier id code later h => ?_⟩
  · rintro ⟨earlier, later, h, -⟩
    cases List.append_eq_nil_iff.mp h.symm |>.2
  · cases List.append_eq_nil_iff.mp h.symm |>.2

/-- A lookup fails just where nothing is live. -/
theorem Keeps.get?_eq_none_iff {t : FunctionTable} (h : Keeps log t) :
    t.get? id = none ↔ ∀ code, ¬ Live log id code := by
  rw [Option.eq_none_iff_forall_ne_some]
  exact forall_congr' fun code => not_congr (h.get? id code)

/-- One more entry: the table goes by it, and it returns no id that is live. -/
theorem Keeps.concat {t t' : FunctionTable} (h : Keeps log t)
    (ht : ∀ id code, t'.get? id = some code ↔
      e = .added id code ∨ e.id ≠ id ∧ t.get? id = some code)
    (he : ∀ id code, e = .added id code → t.get? id = none) : Keeps (log ++ [e]) t' := by
  refine ⟨fun id code => ?_, fun earlier id code later hlog => ?_⟩
  · rw [ht, live_concat, h.get?]
  · rcases place_of_concat hlog with ⟨rfl, rfl⟩ | ⟨later, -, rfl⟩
    · exact h.get?_eq_none_iff.mp (he id code rfl)
    · exact h.fresh earlier id code later rfl

theorem Keeps.unchanged {t t' : FunctionTable} (h : Keeps log t) (ht : t' = t) :
    Keeps (log ++ []) t' := by
  rw [ht, List.append_nil]
  exact h

/-- No instruction changes the functions. -/
theorem functions_step (i : Instruction) (m : Machine) : (step i m).2.functions = m.functions := by
  have heffect := effect_step i m
  generalize step i m = result at heffect
  cases heffect <;> rfl

/-- Removing what is not there fails and changes nothing. -/
theorem removeFunction_of_none (h : m.functions.get? id = none) :
    removeFunction id m = (.error (.functionNotFound id), m) := by
  rw [removeFunction, FunctionTable.remove?_eq_none h]

theorem removeFunction_of_some (h : m.functions.get? id = some code) :
    ∃ t, removeFunction id m = (.ok code, { m with functions := t }) ∧
      ∀ other, t.get? other = if other = id then none else m.functions.get? other := by
  obtain ⟨t, hremove, hget⟩ := FunctionTable.remove?_eq_some h
  exact ⟨t, by rw [removeFunction, hremove], hget⟩

/-- **One operation** does to the table what it writes in the log. -/
theorem Keeps.apply (h : Keeps log m.functions) (op : Operation) :
    Keeps (log ++ (op.entry? m).toList) (op.apply m).functions := by
  cases op with
  | add code =>
      have hleast := m.functions.isLeast_add code
      refine h.concat (fun id c => ?_) fun id c he => ?_
      · have hget : (Operation.apply (.add code) m).functions.get? id = _ :=
          m.functions.get?_add code id
        rw [hget]
        by_cases hid : id = (m.functions.add code).1
        · subst hid
          simp [addFunction, Entry.id]
        · simp [addFunction, Entry.id, hid, Ne.symm hid]
      · cases he
        exact hleast.1
  | remove id =>
      cases hid : m.functions.get? id with
      | none =>
          rw [Operation.entry?, Operation.apply, removeFunction_of_none hid]
          exact h.unchanged rfl
      | some code =>
          obtain ⟨t, hremove, hget⟩ := removeFunction_of_some hid
          rw [Operation.entry?, Operation.apply, hremove]
          refine h.concat (fun other c => ?_) nofun
          by_cases hother : other = id
          · simp [hget, hother, Entry.id]
          · simp [hget, hother, Entry.id, Ne.symm hother]
  | run fuel function => exact h.unchanged (functions_after fuel (m.enter function))
  | interpret fuel => exact h.unchanged (functions_after fuel m)
  | step i => exact h.unchanged (functions_step i m)

/-! ### All histories -/

/-- **A history** does, too. -/
theorem keeps_afterAll (h : Keeps log m.functions) (ops : List Operation) :
    Keeps (log ++ m.log ops) (m.afterAll ops).functions := by
  induction ops generalizing m log with
  | nil =>
      rw [Machine.log, List.append_nil]
      exact h
  | cons op ops ih =>
      rw [Machine.log, ← List.append_assoc]
      exact ih (h.apply op)

/-- **Ids of functions.**  Whatever was added to a new machine, removed from it and run on it:

* An addition returns the least id that is not live.
* An id that an addition returned is not returned again before it is removed, so no two live
  functions share one.
* A function is in the table, with its code, just if it is live.
* A removal of a live function gives its code, and one of any other id fails and changes nothing. -/
theorem functions_afterAll (ops : List Operation) :
    let m := initial.afterAll ops
    let log := initial.log ops
    (∀ code, IsLeast {id | ∀ c, ¬ Live log id c} (m.addFunction code).1) ∧
    (∀ earlier id code between id' code' later,
      log = earlier ++ .added id code :: between ++ .added id' code' :: later →
      .removed id ∉ between → id' ≠ id) ∧
    (∀ id code, m.functions.get? id = some code ↔ Live log id code) ∧
    (∀ id code, Live log id code → (removeFunction id m).1 = .ok code) ∧
    ∀ id, (∀ code, ¬ Live log id code) →
      removeFunction id m = (.error (.functionNotFound id), m) := by
  intro m log
  have hkeeps : Keeps log m.functions := @keeps_afterAll [] initial keeps_empty ops
  refine ⟨fun code => ?_, ?_, hkeeps.get?, fun id code hlive => ?_, fun id hdead => ?_⟩
  · simp only [← hkeeps.get?_eq_none_iff]
    exact m.functions.isLeast_add code
  · rintro earlier id code between id' code' later hlog hbetween rfl
    obtain ⟨c, hlive⟩ := exists_live_of_not_removed earlier code hbetween
    exact hkeeps.fresh _ _ _ _ hlog c hlive
  · obtain ⟨t, hremove, -⟩ := removeFunction_of_some ((hkeeps.get? id code).mpr hlive)
    rw [hremove]
  · exact removeFunction_of_none (hkeeps.get?_eq_none_iff.mpr hdead)

/-- An id that was removed is returned again, and a second removal of it is no entry. -/
example : initial.log [.add #[.halt], .add #[.halt], .remove 0, .remove 0, .add #[], .add #[]] =
    [.added 0 #[.halt], .added 1 #[.halt], .removed 0, .added 0 #[], .added 2 #[]] := by
  decide

end Machine

end ScriptLang
