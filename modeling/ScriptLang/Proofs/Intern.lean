import ScriptLang.Intern.Table

/-!
# What a handle stands for

A table only grows (`GrowsTo`), so a handle keeps its text.  That text is the one the handle was
given out for if the table compares texts; if it compares hashes alone, it is one with the same hash
(`Policy.Agrees`).

* `Table.exists_get?_intern`: the text of a handle agrees with the text that was interned.
-/

namespace ScriptLang.Intern

/-- The text of a handle and a text it was given out for, as far as a policy tells. -/
def Policy.Agrees : Policy → Text → Text → Prop
  | .hashOnly, stored, text => djb2 stored = djb2 text
  | .verified, stored, text => stored = text

theorem Policy.agrees_refl (policy : Policy) (text : Text) : policy.Agrees text text := by
  cases policy <;> rfl

namespace Table

/-- Entries are added at the end only, and the policy stays. -/
def GrowsTo (t u : Table) : Prop := u.policy = t.policy ∧ t.entries <+: u.entries

theorem GrowsTo.refl (t : Table) : t.GrowsTo t := ⟨rfl, List.prefix_refl _⟩

theorem GrowsTo.trans {t u v : Table} (h : t.GrowsTo u) (h' : u.GrowsTo v) : t.GrowsTo v :=
  ⟨h'.1.trans h.1, h.2.trans h'.2⟩

/-- Interning adds an entry at the end, or none. -/
theorem growsTo_intern (t : Table) (text : Text) : t.GrowsTo (t.intern text).2 := by
  unfold intern
  dsimp only
  split
  · exact .refl t
  · exact ⟨rfl, List.prefix_append _ _⟩

/-- A handle once given out keeps its text. -/
theorem GrowsTo.get? {t u : Table} (h : t.GrowsTo u) {s : Symbol} {text : Text}
    (hs : t.get? s = some text) : u.get? s = some text := by
  obtain ⟨-, more, h⟩ := h
  obtain ⟨e, he, rfl⟩ := Option.map_eq_some_iff.mp hs
  rw [Table.get?, ← h, List.getElem?_append_left (List.getElem?_eq_some_iff.mp he).1, he]
  rfl

/-- Every entry has the hash of its text. -/
def Hashed (t : Table) : Prop := ∀ e ∈ t.entries, e.hash = djb2 e.text

theorem hashed_empty (policy : Policy) : (empty policy).Hashed := nofun

theorem Hashed.intern {t : Table} (h : t.Hashed) (text : Text) : (t.intern text).2.Hashed := by
  unfold Table.intern
  dsimp only
  split
  · exact h
  · intro e he
    rcases List.mem_append.mp he with he | he
    · exact h e he
    · rw [List.mem_singleton.mp he]
      rfl

/-- **Tables are hashed**, and keep their policy, whatever was interned before. -/
theorem internAll_spec {t : Table} (h : t.Hashed) (texts : List Text) :
    (t.internAll texts).policy = t.policy ∧ (t.internAll texts).Hashed := by
  induction texts generalizing t with
  | nil => exact ⟨rfl, h⟩
  | cons text texts ih =>
      obtain ⟨hpolicy, hhashed⟩ := ih (h.intern text)
      exact ⟨hpolicy.trans (t.growsTo_intern text).1, hhashed⟩

/-- **The text of a handle** agrees with the text it was given out for. -/
theorem exists_get?_intern {t : Table} (h : t.Hashed) (text : Text) :
    ∃ stored, (t.intern text).2.get? (t.intern text).1 = some stored ∧
      t.policy.Agrees stored text := by
  unfold Table.intern
  dsimp only
  split
  next i hi =>
    obtain ⟨hlt, hmatch, -⟩ := List.findIdx?_eq_some_iff_getElem.mp hi
    refine ⟨t.entries[i].text, by simp [get?, hlt], ?_⟩
    simp only [Entry.matches, Entry.ofText, Bool.and_eq_true, beq_iff_eq,
      h _ (List.getElem_mem hlt)] at hmatch
    obtain ⟨hhash, htext⟩ := hmatch
    cases hpolicy : t.policy with
    | hashOnly => exact hhash
    | verified =>
        rw [hpolicy] at htext
        exact eq_of_beq htext
  next => exact ⟨text, by simp [get?, size, Entry.ofText], t.policy.agrees_refl text⟩

end Table

end ScriptLang.Intern
