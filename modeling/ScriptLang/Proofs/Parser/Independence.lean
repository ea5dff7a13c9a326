import ScriptLang.Proofs.Intern.History
import ScriptLang.Proofs.Lexer
import ScriptLang.Proofs.Parser.Simulation

/-!
# Interning does not influence parsing

Two lexers over one source and different tables read the same lexemes and intern the same texts in
the same order, whatever is in the tables and whatever their policies are.  So they differ in the
handles of their tokens only, and nothing in the parser looks at a handle.

`Beside log l l'` says that two lexers are at the same place after both have interned `log`, each
over its own table.  Their tokens are `Twins`: the same but for their handles, which were given out
for the same text at the same time.  One token keeps the lexers beside each other
(`Beside.nextToken`), so all tokens do (`Beside.tokenize`), and a parser over them as well
(`sound_interning`).

* `Agrees.map_withoutHandle`: two readings are equal but for handles.
* `Agrees.eq_of_noCollisions`: they are equal if the tables start empty and no texts collide.
* **Interning does not influence parsing** (`Parser.interning_independent`).
-/

namespace ScriptLang

open Intern (Table)

/-- A token with the value of its handle forgotten. -/
def Token.withoutHandle (t : Token) : Token := { t with value := t.value.map fun _ => ⟨0⟩ }

section Tables

variable (t₁ t₂ : Table)

/-- Two tokens that differ in their handles only.  The handles were given out for one text, after
the tables had interned the same texts of `log`. -/
structure Twins (log : List Text) (t u : Token) : Prop where
  kind : t.kind = u.kind
  pos : t.pos = u.pos
  value : t.value = none ∧ u.value = none ∨
    ∃ before text, before ++ [text] <+: log ∧
      t.value = some ((t₁.internAll before).intern text).1 ∧
      u.value = some ((t₂.internAll before).intern text).1

/-- Two lexers at the same place that have interned `log`. -/
structure Lexer.Beside (log : List Text) (l l' : Lexer) : Prop where
  scanner : l.scanner = l'.scanner
  left : l.table = t₁.internAll log
  right : l'.table = t₂.internAll log

/-- Two readings that end alike: with the same error, or with answers that differ in twins. -/
inductive Agrees {ε α : Type} [HasTokens α] (log : List Text) : Except ε α → Except ε α → Prop where
  | ok {a b : α} (h : Alike (Twins t₁ t₂ log) a b) : Agrees log (.ok a) (.ok b)
  | error (e : ε) : Agrees log (.error e) (.error e)

end Tables

variable {t₁ t₂ : Table} {log log' : List Text} {t u : Token} {l l' : Lexer}

theorem Twins.mono (h : Twins t₁ t₂ log t u) (hlog : log <+: log') : Twins t₁ t₂ log' t u := by
  refine ⟨h.kind, h.pos, h.value.imp_right ?_⟩
  rintro ⟨before, text, hbefore, hvalues⟩
  exact ⟨before, text, hbefore.trans hlog, hvalues⟩

/-- With their handles forgotten, twins are the same token. -/
theorem Twins.withoutHandle_eq (h : Twins t₁ t₂ log t u) : t.withoutHandle = u.withoutHandle := by
  have hvalue : t.value.map (fun _ => (⟨0⟩ : Symbol)) = u.value.map fun _ => ⟨0⟩ := by
    rcases h.value with ⟨ht, hu⟩ | ⟨before, text, -, ht, hu⟩
    · rw [ht, hu]
    · rw [ht, hu]
      rfl
  rw [Token.withoutHandle, Token.withoutHandle, h.kind, h.pos, hvalue]

/-- Without collisions the policies give twins the same handle. -/
theorem Twins.eq_of_noCollisions (h : Twins (.empty .hashOnly) (.empty .verified) log t u)
    (hlog : Table.NoCollisions log) : t = u := by
  have hvalue : t.value = u.value := by
    rcases h.value with ⟨ht, hu⟩ | ⟨before, text, hbefore, ht, hu⟩
    · rw [ht, hu]
    · rw [ht, hu]
      exact congrArg some (hlog.handleAfter_eq hbefore .hashOnly)
  cases t
  cases u
  cases h.kind
  cases h.pos
  cases hvalue
  rfl

namespace Lexer

/-- Without collisions the policies make the same entries. -/
theorem Beside.entries_eq (h : Beside (.empty .hashOnly) (.empty .verified) log l l')
    (hlog : Table.NoCollisions log) : l.table.entries = l'.table.entries := by
  rw [h.left, h.right]
  exact hlog.entries_eq .hashOnly

/-! ### Tokens -/

/-- **One token** keeps two lexers beside each other, and so does an error. -/
theorem Beside.nextToken (h : Beside t₁ t₂ log l l') :
    (∃ e m m', l.nextToken = (.error e, m) ∧ l'.nextToken = (.error e, m') ∧
        Beside t₁ t₂ log m m') ∨
      ∃ log' t u m m', log <+: log' ∧ l.nextToken = (.ok t, m) ∧ l'.nextToken = (.ok u, m') ∧
        Twins t₁ t₂ log' t u ∧ Beside t₁ t₂ log' m m' := by
  obtain ⟨s, a, b⟩ := l
  obtain ⟨s', a', b'⟩ := l'
  obtain ⟨rfl, rfl, rfl⟩ := h
  cases hs : s.next with
  | mk r s' =>
      simp only [Lexer.nextToken, Lexer.lexeme, Attempt.bind_apply, hs]
      cases r with
      | error e => exact .inl ⟨e, _, _, rfl, rfl, rfl, rfl, rfl⟩
      | ok x =>
          right
          cases hx : x.text with
          | none =>
              simp only [internLexeme, hx]
              exact ⟨log, _, _, _, _, List.prefix_refl _, rfl, rfl, ⟨rfl, rfl, .inl ⟨rfl, rfl⟩⟩,
                rfl, rfl, rfl⟩
          | some text =>
              simp only [internLexeme, hx]
              refine ⟨log ++ [text], _, _, _, _, List.prefix_append _ _, rfl, rfl, ⟨rfl, rfl,
                .inr ⟨log, text, List.prefix_refl _, rfl, rfl⟩⟩, rfl, ?_, ?_⟩ <;>
              exact (Table.internAll_concat ..).symm

/-- **All tokens** keep two lexers beside each other. -/
theorem Beside.tokenize (h : Beside t₁ t₂ log l l') : ∃ log',
    log <+: log' ∧ Agrees t₁ t₂ log' l.tokenize.1 l'.tokenize.1 ∧
      Beside t₁ t₂ log' l.tokenize.2 l'.tokenize.2 := by
  -- Every token but the last leaves less to read.
  induction hn : l.remaining using Nat.strongRecOn generalizing log l l' with
  | ind n ih =>
  subst hn
  rw [l.tokenize_eq, l'.tokenize_eq]
  rcases h.nextToken with ⟨e, m, m', hm, hm', hnext⟩ | ⟨log₁, t, u, m, m', hlog, hm, hm', ht, hnext⟩
  · rw [hm, hm']
    exact ⟨log, List.prefix_refl _, .error e, hnext.scanner, hnext.left, hnext.right⟩
  · rw [hm, hm']
    dsimp only
    rw [← ht.kind]
    split
    next =>
      exact ⟨log₁, hlog, .ok (.cons (.of_rel ht) (.nil _)), hnext.scanner, hnext.left, hnext.right⟩
    next hne =>
      obtain ⟨log₂, hlog', hagrees, hend⟩ := ih _ (length_nextToken_lt hm hne) hnext rfl
      refine ⟨log₂, hlog.trans hlog', ?_, hend⟩
      generalize m.tokenize.1 = r at hagrees
      generalize m'.tokenize.1 = s at hagrees
      cases hagrees with
      | ok hts => exact .ok (.cons (.of_rel (ht.mono hlog')) hts)
      | error e => exact .error e

end Lexer

/-! ### Readings that agree -/

namespace Agrees

variable {ε α : Type} [HasTokens α] {r s : Except ε α}

/-- **Readings that agree** are the same once handles are forgotten. -/
theorem map_withoutHandle (h : Agrees t₁ t₂ log r s) :
    r.map (HasTokens.mapTokens Token.withoutHandle) =
      s.map (HasTokens.mapTokens Token.withoutHandle) := by
  cases h with
  | ok h => exact congrArg Except.ok (h.map_eq fun _ _ ht => ht.withoutHandle_eq)
  | error e => rfl

/-- If no texts collide, they are the same with their handles. -/
theorem eq_of_noCollisions (h : Agrees (.empty .hashOnly) (.empty .verified) log r s)
    (hlog : Table.NoCollisions log) (hid : ∀ a : α, HasTokens.mapTokens id a = a) : r = s := by
  cases h with
  | ok h => exact congrArg Except.ok (h.eq (fun _ _ ht => ht.eq_of_noCollisions hlog) hid)
  | error e => rfl

end Agrees

/-! ### The parser -/

namespace Parser

/-- Two runs whose lexers are beside each other, in the worlds of the texts interned so far. -/
def interning (t₁ t₂ : Table) : Simulation (List Text) where
  later := (· <+: ·)
  state log p q := p.lexer.Beside t₁ t₂ log q.lexer ∧
    Option.Rel (Twins t₁ t₂ log) p.lookahead q.lookahead
  token := Twins t₁ t₂
  failed log x y := x.1 = y.1 ∧ x.2.lexer.Beside t₁ t₂ log y.2.lexer

/-- No step of the parser tells twins apart. -/
theorem sound_interning (t₁ t₂ : Table) : (interning t₁ t₂).Sound where
  refl := List.prefix_refl
  trans := List.IsPrefix.trans
  mono := fun hlog ht => ht.mono hlog
  kind := Twins.kind
  pos := Twins.pos
  remaining := by
    rintro log ⟨l, a⟩ ⟨m, b⟩ ⟨hbeside, hahead⟩
    have hlexer : l.remaining = m.remaining := congrArg (·.cursor.rest.length) hbeside.scanner
    cases hahead with
    | none => exact hlexer
    | some ht => simp only [Parser.remaining, hlexer, ht.kind]
  lookahead := by
    rintro log ⟨l, a⟩ ⟨m, b⟩ ⟨-, hahead⟩
    cases hahead with
    | none => exact .inl ⟨rfl, rfl⟩
    | some ht => exact .inr ⟨_, _, rfl, rfl, ht⟩
  pull := by
    rintro log ⟨l, a⟩ ⟨m, b⟩ ⟨hbeside, -⟩ rfl rfl
    unfold Parser.pull
    rcases hbeside.nextToken with ⟨e, l', m', hl, hm, h⟩ | ⟨log', t, u, l', m', hlog, hl, hm, ht, h⟩
    · rw [hl, hm]
      exact .failure (List.prefix_refl _) ⟨rfl, h⟩
    · rw [hl, hm]
      exact .answer hlog ⟨h, .some ht⟩ (.of_rel ht)
  drop := fun hs _ _ _ => ⟨hs.1, .none⟩
  expected := fun _ hs _ _ _ => ⟨rfl, hs.1⟩
  unrecognised := fun hs _ _ _ => ⟨rfl, hs.1⟩

/-- **A whole run** keeps two parsers beside each other. -/
theorem parseProgram_beside (h : l.Beside t₁ t₂ log l') : ∃ log',
    Agrees t₁ t₂ log' (parseProgram (ofLexer l)).1 (parseProgram (ofLexer l')).1 ∧
      (parseProgram (ofLexer l)).2.lexer.Beside t₁ t₂ log' (parseProgram (ofLexer l')).2.lexer := by
  have hstart : (interning t₁ t₂).state log (ofLexer l) (ofLexer l') := ⟨h, .none⟩
  rcases (sound_interning t₁ t₂).parseProgram hstart with
    ⟨log', prog, prog', p, q, hp, hq, hs, ha⟩ | ⟨log', e, f, p, q, hp, hq, rfl, hbeside⟩
  · rw [hp, hq]
    exact ⟨log', .ok ha, hs.1⟩
  · rw [hp, hq]
    exact ⟨log', .error e, hbeside⟩

/-! ### All sources -/

/-- **Interning does not influence parsing**, for every source and every bound on texts.

* Over any two tables, whatever they hold and whatever their policies are, tokens and programs are
  equal but for handles, and errors are equal.
* Over empty tables both policies intern the same texts `log`.  If no two different texts of `log`
  share a hash, tokens and programs are equal with their handles, and so are the entries. -/
theorem interning_independent (source : Text) (limit : Nat) :
    (∀ t₁ t₂ : Table,
      (Lexer.ofText source t₁ limit).tokenize.1.map (List.map Token.withoutHandle) =
          (Lexer.ofText source t₂ limit).tokenize.1.map (List.map Token.withoutHandle) ∧
        (parseProgram (ofLexer (.ofText source t₁ limit))).1.map
            (Program.mapTokens Token.withoutHandle) =
          (parseProgram (ofLexer (.ofText source t₂ limit))).1.map
            (Program.mapTokens Token.withoutHandle)) ∧
    let hashed := Lexer.ofText source (.empty .hashOnly) limit
    let verified := Lexer.ofText source (.empty .verified) limit
    (∃ log, hashed.tokenize.2.table = (Table.empty .hashOnly).internAll log ∧
      verified.tokenize.2.table = (Table.empty .verified).internAll log ∧
      (Table.NoCollisions log → hashed.tokenize.1 = verified.tokenize.1 ∧
        hashed.tokenize.2.table.entries = verified.tokenize.2.table.entries)) ∧
    ∃ log,
      (parseProgram (ofLexer hashed)).2.lexer.table = (Table.empty .hashOnly).internAll log ∧
      (parseProgram (ofLexer verified)).2.lexer.table = (Table.empty .verified).internAll log ∧
      (Table.NoCollisions log →
        (parseProgram (ofLexer hashed)).1 = (parseProgram (ofLexer verified)).1 ∧
        (parseProgram (ofLexer hashed)).2.lexer.table.entries =
          (parseProgram (ofLexer verified)).2.lexer.table.entries) := by
  have hstart : ∀ t₁ t₂ : Table, (Lexer.ofText source t₁ limit).Beside t₁ t₂ []
      (Lexer.ofText source t₂ limit) := fun _ _ => ⟨rfl, rfl, rfl⟩
  refine ⟨fun t₁ t₂ => ?_, ?_, ?_⟩
  · obtain ⟨_, -, htokens, -⟩ := (hstart t₁ t₂).tokenize
    obtain ⟨_, hprogram, -⟩ := parseProgram_beside (hstart t₁ t₂)
    exact ⟨htokens.map_withoutHandle, hprogram.map_withoutHandle⟩
  · obtain ⟨log, -, hagrees, hbeside⟩ := (hstart (.empty .hashOnly) (.empty .verified)).tokenize
    refine ⟨log, hbeside.left, hbeside.right, fun hlog => ⟨?_, ?_⟩⟩
    · exact hagrees.eq_of_noCollisions hlog List.map_id
    · exact hbeside.entries_eq hlog
  · obtain ⟨log, hagrees, hbeside⟩ :=
      parseProgram_beside (hstart (.empty .hashOnly) (.empty .verified))
    refine ⟨log, hbeside.left, hbeside.right, fun hlog => ⟨?_, ?_⟩⟩
    · exact hagrees.eq_of_noCollisions hlog Program.mapTokens_id
    · exact hbeside.entries_eq hlog

-- Texts that share a hash are told apart by one policy only.
example :
    let source := Text.ofString "stylist := subgenera"
    (Lexer.ofText source (.empty .hashOnly) 31).tokenize.1.toOption.map (List.map Token.value) =
        some [some ⟨0⟩, none, some ⟨0⟩, none] ∧
      (Lexer.ofText source (.empty .verified) 31).tokenize.1.toOption.map (List.map Token.value) =
        some [some ⟨0⟩, none, some ⟨1⟩, none] := by
  decide +kernel

end Parser

end ScriptLang
