import Mathlib.Data.List.Induction
import ScriptLang.Proofs.Intern

/-!
# Histories of an interning table

A table is made by interning texts one after the other.  To a table two texts are the same if they
agree under its policy, which is an equivalence: equality of the texts or of their hashes.
Interning finds the entry that agrees with a text or adds one (`Table.intern_cases`), so a table
records a history: each text agrees with an entry, no two entries agree, and an entry is the first
text of the history among those that agree with it (`Table.Records`).

* `Records.eq_of_agrees`: texts that agree have one handle.
* `handleAfter_eq_iff`: two calls of a history return one handle just if their texts agree.
* `NoCollisions.entries_eq`, `NoCollisions.handleAfter_eq`: if no two texts of a history collide,
  the policy makes no difference.
* **The laws of interning** (`interning_laws`).  What a table holds after any history, which never
  changes again, under either policy.
-/

namespace ScriptLang.Intern

/-! ### Agreement -/

namespace Policy

variable {policy : Policy} {a b c : Text}

instance (policy : Policy) (a b : Text) : Decidable (policy.Agrees a b) :=
  match policy with
  | .hashOnly => inferInstanceAs (Decidable (djb2 a = djb2 b))
  | .verified => inferInstanceAs (Decidable (a = b))

theorem Agrees.symm (h : policy.Agrees a b) : policy.Agrees b a := by
  cases policy <;> exact Eq.symm h

theorem Agrees.trans (h : policy.Agrees a b) (h' : policy.Agrees b c) : policy.Agrees a c := by
  cases policy <;> exact Eq.trans h h'

end Policy

/-- An entry is found for the texts that agree with its own. -/
theorem Entry.matches_iff {policy : Policy} {e : Entry} (h : e.hash = djb2 e.text) (text : Text) :
    Entry.matches policy (.ofText text) e ↔ policy.Agrees e.text text := by
  cases policy with
  | hashOnly => simp [Entry.matches, Entry.ofText, Policy.Agrees, h]
  | verified =>
      simp only [Entry.matches, Entry.ofText, Policy.Agrees, h, Bool.and_eq_true, beq_iff_eq,
        and_iff_right_iff_imp]
      rintro rfl
      rfl

namespace Table

variable {t u : Table} {text : Text} {s r : Symbol} {history : List Text}

/-- **What interning does.**  The text agrees with an entry and gets its handle, or with none, and
gets one of its own. -/
theorem intern_cases (h : t.Hashed) (text : Text) :
    (∃ i e, t.entries[i]? = some e ∧ t.policy.Agrees e.text text ∧ t.intern text = (⟨i⟩, t)) ∨
      (∀ e ∈ t.entries, ¬ t.policy.Agrees e.text text) ∧
        t.intern text = (⟨t.size⟩, { t with entries := t.entries ++ [Entry.ofText text] }) := by
  unfold intern
  dsimp only
  split
  next i hi =>
    obtain ⟨hlt, hmatch, -⟩ := List.findIdx?_eq_some_iff_getElem.mp hi
    refine .inl ⟨i, t.entries[i], List.getElem?_eq_getElem hlt, ?_, rfl⟩
    exact (Entry.matches_iff (h _ (List.getElem_mem hlt)) text).mp hmatch
  next hnone =>
    refine .inr ⟨fun e he hagrees => ?_, rfl⟩
    have hmatch := List.findIdx?_eq_none_iff.mp hnone e he
    rw [(Entry.matches_iff (h e he) text).mpr hagrees] at hmatch
    cases hmatch

theorem internAll_append (t : Table) (texts more : List Text) :
    t.internAll (texts ++ more) = (t.internAll texts).internAll more :=
  List.foldl_append

theorem internAll_concat (t : Table) (texts : List Text) (text : Text) :
    t.internAll (texts ++ [text]) = ((t.internAll texts).intern text).2 :=
  t.internAll_append texts [text]

theorem growsTo_internAll (t : Table) (texts : List Text) : t.GrowsTo (t.internAll texts) := by
  induction texts generalizing t with
  | nil => exact .refl t
  | cons text texts ih => exact (t.growsTo_intern text).trans (ih _)

/-- A handle that was given out keeps its entry. -/
theorem GrowsTo.entry (h : t.GrowsTo u) (hs : s.index < t.size) :
    u.entries[s.index]? = t.entries[s.index]? := by
  obtain ⟨-, more, h⟩ := h
  rw [← h, List.getElem?_append_left hs]

/-- Every entry has the hash of its text, so a handle's hash is that of its text. -/
theorem Hashed.hash? (h : t.Hashed) (s : Symbol) : t.hash? s = (t.get? s).map djb2 := by
  unfold Table.hash? Table.get?
  cases he : t.entries[s.index]? with
  | none => rfl
  | some e => exact congrArg some (h e (List.mem_of_getElem? he))

/-! ### What a table records -/

/-- The entries of a table are the texts of a history that agree with none before them. -/
structure Records (t : Table) (history : List Text) : Prop where
  hashed : t.Hashed
  /-- No two entries agree. -/
  distinct : t.entries.Pairwise fun e f => ¬ t.policy.Agrees e.text f.text
  /-- Every text agrees with an entry. -/
  covers : ∀ text ∈ history, ∃ e ∈ t.entries, t.policy.Agrees e.text text
  /-- An entry is the first of the texts that agree with it. -/
  first : ∀ e ∈ t.entries, history.find? (t.policy.Agrees · e.text) = some e.text

theorem records_empty (policy : Policy) : (empty policy).Records [] :=
  ⟨hashed_empty policy, .nil, nofun, nofun⟩

/-- **One call** adds its text to what is recorded. -/
theorem Records.intern (h : t.Records history) (text : Text) :
    (t.intern text).2.Records (history ++ [text]) := by
  have hhashed := h.hashed.intern text
  rcases intern_cases h.hashed text with ⟨i, e, he, hagrees, heq⟩ | ⟨hnew, heq⟩
  · rw [heq] at hhashed ⊢
    refine ⟨hhashed, h.distinct, fun x hx => ?_, fun f hf => ?_⟩
    · rcases List.mem_append.mp hx with hx | hx
      · exact h.covers x hx
      · rw [List.mem_singleton.mp hx]
        exact ⟨e, List.mem_of_getElem? he, hagrees⟩
    · rw [List.find?_append, h.first f hf]
      rfl
  · rw [heq] at hhashed ⊢
    refine ⟨hhashed, ?_, fun x hx => ?_, fun f hf => ?_⟩
    · refine List.pairwise_append.mpr ⟨h.distinct, List.pairwise_singleton _ _, fun e he f hf => ?_⟩
      rw [List.mem_singleton.mp hf]
      exact hnew e he
    · rcases List.mem_append.mp hx with hx | hx
      · obtain ⟨e, he, hagrees⟩ := h.covers x hx
        exact ⟨e, List.mem_append_left _ he, hagrees⟩
      · rw [List.mem_singleton.mp hx]
        exact ⟨_, List.mem_append_right _ (List.mem_singleton_self _), t.policy.agrees_refl text⟩
    · rcases List.mem_append.mp hf with hf | hf
      · rw [List.find?_append, h.first f hf]
        rfl
      -- A text of the history that agrees with the new one would agree with an entry.
      · have hnone : history.find? (t.policy.Agrees · text) = none := by
          refine List.find?_eq_none.mpr fun x hx hagrees => ?_
          obtain ⟨e, he, hx⟩ := h.covers x hx
          exact hnew e he (hx.trans (of_decide_eq_true hagrees))
        rw [List.mem_singleton.mp hf, Entry.ofText, List.find?_append, hnone]
        simp [t.policy.agrees_refl text]

/-- **A history** is recorded by the table it makes. -/
theorem records_internAll (policy : Policy) (history : List Text) :
    ((empty policy).internAll history).Records history := by
  induction history using List.reverseRecOn with
  | nil => exact records_empty policy
  | append_singleton history text ih =>
      rw [internAll_concat]
      exact ih.intern text

/-- Texts that agree have one handle. -/
theorem Records.eq_of_agrees {a b : Text} (h : t.Records history) (hs : t.get? s = some a)
    (hr : t.get? r = some b) (hagrees : t.policy.Agrees a b) : s = r := by
  obtain ⟨e, he, rfl⟩ := Option.map_eq_some_iff.mp hs
  obtain ⟨f, hf, rfl⟩ := Option.map_eq_some_iff.mp hr
  obtain ⟨hi, rfl⟩ := List.getElem?_eq_some_iff.mp he
  obtain ⟨hj, rfl⟩ := List.getElem?_eq_some_iff.mp hf
  have hdistinct := List.pairwise_iff_getElem.mp h.distinct
  rcases Nat.lt_trichotomy s.index r.index with hlt | heq | hgt
  · exact absurd hagrees (hdistinct _ _ hi hj hlt)
  · exact congrArg Symbol.mk heq
  · exact absurd hagrees.symm (hdistinct _ _ hj hi hgt)

/-- The text of a handle is the first of those interned that agree with it. -/
theorem Records.find?_of_get? {a : Text} (h : t.Records history) (hs : t.get? s = some a)
    (hagrees : t.policy.Agrees a text) :
    history.find? (t.policy.Agrees · text) = some a := by
  obtain ⟨e, he, rfl⟩ := Option.map_eq_some_iff.mp hs
  rw [← h.first e (List.mem_of_getElem? he)]
  congr 1
  funext x
  exact decide_eq_decide.mpr ⟨fun hx => hx.trans hagrees.symm, fun hx => hx.trans hagrees⟩

/-- A table that compares texts holds just the texts of its history. -/
theorem Records.mem_texts (h : t.Records history) (hpolicy : t.policy = .verified) :
    text ∈ t.texts ↔ text ∈ history := by
  constructor
  · intro hmem
    obtain ⟨e, he, rfl⟩ := List.mem_map.mp hmem
    exact List.mem_of_find?_eq_some (h.first e he)
  · intro hmem
    obtain ⟨e, he, hagrees⟩ := h.covers text hmem
    rw [hpolicy] at hagrees
    exact List.mem_map.mpr ⟨e, he, hagrees⟩

/-! ### Two calls -/

/-- The handle that a text gets after a history. -/
def handleAfter (policy : Policy) (history : List Text) (text : Text) : Symbol :=
  (((empty policy).internAll history).intern text).1

/-- The text that a handle given out after a history stands for, then and later. -/
theorem exists_get?_handleAfter (policy : Policy) (history : List Text) (text : Text)
    (more : List Text) :
    ∃ stored, ((empty policy).internAll (history ++ text :: more)).get?
        (handleAfter policy history text) = some stored ∧ policy.Agrees stored text := by
  obtain ⟨hpolicy, hhashed⟩ := internAll_spec (hashed_empty policy) history
  obtain ⟨stored, hget, hagrees⟩ := exists_get?_intern hhashed text
  rw [hpolicy] at hagrees
  refine ⟨stored, ?_, hagrees⟩
  rw [internAll_append]
  exact (growsTo_internAll _ more).get? hget

/-- **Two calls return one handle just if their texts agree.** -/
theorem handleAfter_eq_iff (policy : Policy) (before between : List Text) (a b : Text) :
    handleAfter policy before a = handleAfter policy (before ++ a :: between) b ↔
      policy.Agrees a b := by
  obtain ⟨x, hx, hxa⟩ := exists_get?_handleAfter policy before a (between ++ [b])
  obtain ⟨y, hy, hyb⟩ := exists_get?_handleAfter policy (before ++ a :: between) b []
  rw [List.append_assoc, List.cons_append] at hy
  have hrecords := records_internAll policy (before ++ a :: (between ++ [b]))
  have hpolicy := (internAll_spec (hashed_empty policy) (before ++ a :: (between ++ [b]))).1
  constructor
  · intro heq
    rw [heq, hy] at hx
    cases hx
    exact hxa.symm.trans hyb
  · intro hagrees
    refine hrecords.eq_of_agrees hx hy ?_
    rw [hpolicy]
    exact (hxa.trans hagrees).trans hyb.symm

/-- The handle of a text stands for the first text of the history that agrees with it. -/
theorem get?_handleAfter (policy : Policy) (history : List Text) (text : Text) :
    ((empty policy).internAll (history ++ [text])).get? (handleAfter policy history text) =
      (history ++ [text]).find? (policy.Agrees · text) := by
  obtain ⟨stored, hget, hagrees⟩ := exists_get?_handleAfter policy history text []
  have hrecords := records_internAll policy (history ++ [text])
  have hpolicy : ((empty policy).internAll (history ++ [text])).policy = policy :=
    (internAll_spec (hashed_empty policy) _).1
  have hfind := hrecords.find?_of_get? hget (hpolicy.symm ▸ hagrees)
  rw [hpolicy] at hfind
  rw [hget, hfind]

/-! ### Without collisions -/

/-- No two different texts of a history share a hash. -/
def NoCollisions (history : List Text) : Prop :=
  ∀ a ∈ history, ∀ b ∈ history, djb2 a = djb2 b → a = b

theorem NoCollisions.mono {before : List Text} (h : NoCollisions history)
    (hbefore : before <+: history) : NoCollisions before := fun a ha b hb =>
  h a (hbefore.subset ha) b (hbefore.subset hb)

theorem findIdx?_congr {α : Type} {f g : α → Bool} {as : List α} (h : ∀ a ∈ as, f a = g a) :
    as.findIdx? f = as.findIdx? g := by
  induction as with
  | nil => rfl
  | cons a as ih =>
      rw [List.findIdx?_cons, List.findIdx?_cons, h a (List.mem_cons_self ..),
        ih fun b hb => h b (List.mem_cons_of_mem _ hb)]

/-- Tables of any policies that hold the same intern a text alike if it collides with nothing in
them. -/
theorem intern_congr (ht : t.Hashed) (hentries : u.entries = t.entries)
    (hnew : ∀ e ∈ t.entries, djb2 e.text = djb2 text → e.text = text) :
    (u.intern text).1 = (t.intern text).1 ∧
      (u.intern text).2.entries = (t.intern text).2.entries := by
  -- A policy only matters between different texts of one hash.
  have hagrees : ∀ (policy : Policy), ∀ e ∈ t.entries,
      (policy.Agrees e.text text ↔ e.text = text) := by
    intro policy e he
    cases policy with
    | hashOnly => exact ⟨hnew e he, congrArg djb2⟩
    | verified => exact Iff.rfl
  have hfind : t.entries.findIdx? (Entry.matches u.policy (.ofText text)) =
      t.entries.findIdx? (Entry.matches t.policy (.ofText text)) := by
    refine findIdx?_congr fun e he => Bool.eq_iff_iff.mpr ?_
    rw [Entry.matches_iff (ht e he), Entry.matches_iff (ht e he), hagrees _ e he, hagrees _ e he]
  unfold intern size
  dsimp only
  rw [hentries, hfind]
  split
  · exact ⟨rfl, hentries⟩
  · exact ⟨rfl, rfl⟩

/-- One more text, which collides with none before it, makes no difference between the policies. -/
theorem NoCollisions.intern {policy : Policy} {before : List Text}
    (h : NoCollisions (before ++ [text]))
    (hentries : ((empty policy).internAll before).entries =
      ((empty .verified).internAll before).entries) :
    handleAfter policy before text = handleAfter .verified before text ∧
      ((empty policy).internAll (before ++ [text])).entries =
        ((empty .verified).internAll (before ++ [text])).entries := by
  have hrecords := records_internAll .verified before
  have hpolicy := (internAll_spec (hashed_empty .verified) before).1
  rw [internAll_concat, internAll_concat]
  refine intern_congr hrecords.hashed hentries fun e he => ?_
  have hmem := (hrecords.mem_texts hpolicy).mp (List.mem_map_of_mem he)
  exact h e.text (List.mem_append_left _ hmem) text
    (List.mem_append_right _ (List.mem_singleton_self text))

/-- **Without collisions** every policy makes the entries that `verified` makes. -/
theorem NoCollisions.entries_eq (h : NoCollisions history) (policy : Policy) :
    ((empty policy).internAll history).entries =
      ((empty .verified).internAll history).entries := by
  induction history using List.reverseRecOn with
  | nil => rfl
  | append_singleton history text ih =>
      exact (h.intern (ih (h.mono (List.prefix_append _ _)))).2

/-- **Without collisions** every policy gives the handles that `verified` gives. -/
theorem NoCollisions.handleAfter_eq {before : List Text} (h : NoCollisions history)
    (hbefore : before ++ [text] <+: history) (policy : Policy) :
    handleAfter policy before text = handleAfter .verified before text := by
  have hconcat := h.mono hbefore
  exact (hconcat.intern ((hconcat.mono (List.prefix_append _ _)).entries_eq policy)).1

/-! ### All histories -/

/-- **The laws of interning.**  For every table made by interning a history of texts:

* The hash of a handle is the hash of its text.
* A handle that was given out keeps its text and its hash, whatever is interned later.
* A call changes nothing and returns such a handle, or it adds one entry and returns its place.
* Under `verified` no text is there twice, a handle stands for the text it was given out for, and
  two calls return one handle just if their texts are equal.
* Under `hashOnly` no hash is there twice, a handle stands for the first text interned with its
  hash, and two calls return one handle just if the hashes of their texts are equal. -/
theorem interning_laws (policy : Policy) (history : List Text) :
    let t := (empty policy).internAll history
    (∀ s, t.hash? s = (t.get? s).map djb2) ∧
    (∀ s, s.index < t.size → ∀ more,
      (t.internAll more).get? s = t.get? s ∧ (t.internAll more).hash? s = t.hash? s) ∧
    (∀ text, (t.intern text).1.index < t.size ∧ (t.intern text).2 = t ∨
      (t.intern text).1 = ⟨t.size⟩ ∧
        (t.intern text).2 = { t with entries := t.entries ++ [Entry.ofText text] }) ∧
    (policy = .verified → t.texts.Nodup ∧
      (∀ text, (t.intern text).2.get? (t.intern text).1 = some text) ∧
      ∀ a between b,
        handleAfter policy history a = handleAfter policy (history ++ a :: between) b ↔ a = b) ∧
    (policy = .hashOnly → (t.entries.map Entry.hash).Nodup ∧
      (∀ text, (t.intern text).2.get? (t.intern text).1 =
        (history ++ [text]).find? fun x => djb2 x = djb2 text) ∧
      ∀ a between b,
        handleAfter policy history a = handleAfter policy (history ++ a :: between) b ↔
          djb2 a = djb2 b) := by
  intro t
  have hrecords : t.Records history := records_internAll policy history
  have hpolicy : t.policy = policy := (internAll_spec (hashed_empty policy) history).1
  have hget : ∀ text, (t.intern text).2.get? (t.intern text).1 =
      (history ++ [text]).find? (policy.Agrees · text) := fun text => by
    rw [← get?_handleAfter, internAll_concat]
    rfl
  refine ⟨hrecords.hashed.hash?, fun s hs more => ?_, fun text => ?_, ?_, ?_⟩
  · have hentry := (t.growsTo_internAll more).entry hs
    exact ⟨congrArg _ hentry, congrArg _ hentry⟩
  · rcases intern_cases hrecords.hashed text with ⟨i, e, he, -, heq⟩ | ⟨-, heq⟩
    · rw [heq]
      exact .inl ⟨(List.getElem?_eq_some_iff.mp he).1, rfl⟩
    · rw [heq]
      exact .inr ⟨rfl, rfl⟩
  · rintro rfl
    refine ⟨?_, fun text => ?_, fun a between b => handleAfter_eq_iff .verified history between a b⟩
    · have hdistinct := hrecords.distinct
      rw [hpolicy] at hdistinct
      exact List.pairwise_map.mpr hdistinct
    · obtain ⟨stored, hstored, rfl⟩ := exists_get?_handleAfter .verified history text []
      rw [internAll_concat] at hstored
      exact hstored
  · rintro rfl
    refine ⟨?_, hget, fun a between b => handleAfter_eq_iff .hashOnly history between a b⟩
    have hdistinct := hrecords.distinct
    rw [hpolicy] at hdistinct
    refine List.pairwise_map.mpr (hdistinct.imp_of_mem fun he hf hne heq => hne ?_)
    rw [hrecords.hashed _ he, hrecords.hashed _ hf] at heq
    exact heq

/-- Two texts with one hash share a handle or not, as the policy says. -/
example : djb2 (Text.ofString "stylist") = djb2 (Text.ofString "subgenera") ∧
    handleAfter .hashOnly [Text.ofString "stylist"] (Text.ofString "subgenera") = ⟨0⟩ ∧
    handleAfter .verified [Text.ofString "stylist"] (Text.ofString "subgenera") = ⟨1⟩ := by
  decide

end Table

end ScriptLang.Intern
