import ScriptLang.Proofs.Grammar.Kinds
import ScriptLang.Proofs.Lexer.Buffer
import ScriptLang.Proofs.Parser.Lookahead

/-!
# Handles stay valid

The handle of a token is one that its table gave out, and a table forgets nothing, so the handle has
a text from then on, whatever is read later (`Token.ValidIn`).  A parser is followed by `holding`, a
simulation of a run beside itself whose worlds are the tables of its lexer: what it has ahead and
what it puts into a tree is valid in the table at that time, and so in every later one.

* `Lexer.validIn_of_nextToken`: the tokens of a lexer.
* `validIn_of_parse`: the tokens in the answers of a parser.
* **Handles stay valid** (`handles_valid`), for tokens and trees and after any calls.
-/

namespace ScriptLang

open Intern (Table)

namespace Intern.Table

/-- The handle that a table gives out lies within the table from then on. -/
theorem index_intern_lt (t : Table) (text : Text) :
    (t.intern text).1.index < (t.intern text).2.size := by
  unfold intern
  dsimp only
  split
  next i hi => exact (List.findIdx?_eq_some_iff_getElem.mp hi).1
  next => simp [size]

theorem GrowsTo.size_le {t u : Table} (h : t.GrowsTo u) : t.size ≤ u.size := h.2.length_le

/-- Looking up a handle below the size of the table gives a text. -/
theorem exists_get? {t : Table} {s : Symbol} (h : s.index < t.size) :
    ∃ text, t.get? s = some text :=
  ⟨_, congrArg (Option.map Entry.text) (List.getElem?_eq_getElem h)⟩

end Intern.Table

/-- A token has a handle just when it is a name, a number or a string, and then the table has a text
for it. -/
structure Token.ValidIn (table : Table) (t : Token) : Prop where
  value : t.value.isSome ↔ t.kind = .identifier ∨ t.kind = .number ∨ t.kind = .str
  index : ∀ s, t.value = some s → s.index < table.size
  lookup : ∀ s, t.value = some s → ∃ text, table.get? s = some text

theorem TokenKind.hasValue_iff (kind : TokenKind) :
    kind.hasValue ↔ kind = .identifier ∨ kind = .number ∨ kind = .str := by
  cases kind <;> decide

namespace Token.ValidIn

variable {table table' : Table} {t : Token}

theorem mk' (hvalue : t.value.isSome = t.kind.hasValue)
    (hindex : ∀ s, t.value = some s → s.index < table.size) : t.ValidIn table :=
  ⟨by rw [hvalue, TokenKind.hasValue_iff], hindex, fun s hs => Table.exists_get? (hindex s hs)⟩

/-- **A valid token stays valid** while the table grows. -/
theorem mono (h : t.ValidIn table) (hgrows : table.GrowsTo table') : t.ValidIn table' where
  value := h.value
  index s hs := Nat.lt_of_lt_of_le (h.index s hs) hgrows.size_le
  lookup s hs := by
    obtain ⟨text, htext⟩ := h.lookup s hs
    exact ⟨text, hgrows.get? htext⟩

end Token.ValidIn

/-! ### The lexer -/

namespace Lexer

variable {l l' : Lexer} {t : Token}

/-- Reading a token adds to the table and takes nothing out of it. -/
theorem growsTo_nextToken (l : Lexer) : l.table.GrowsTo l.nextToken.2.table := by
  simp only [nextToken, Attempt.bind_apply, lexeme, internLexeme]
  rcases l.scanner.next with ⟨_ | ⟨_, _ | text, _⟩, s⟩
  · exact .refl _
  · exact .refl _
  · exact l.table.growsTo_intern text

theorem growsTo_asked (l : Lexer) (n : Nat) : l.table.GrowsTo (l.asked n).table := by
  induction n with
  | zero => exact .refl _
  | succ n ih => exact ih.trans (l.asked n).growsTo_nextToken

/-- **The tokens of a lexer are valid** in the table it is left with. -/
theorem validIn_of_nextToken (h : l.nextToken = (.ok t, l')) : t.ValidIn l'.table := by
  refine .mk' (isSome_value_of_nextToken h) fun s hs => ?_
  obtain ⟨x, _, -, -, ⟨-, hvalue, -⟩ | ⟨text, -, hvalue, rfl⟩⟩ := nextToken_eq_ok h
  · cases hvalue.symm.trans hs
  · cases hvalue.symm.trans hs
    exact l.table.index_intern_lt text

end Lexer

namespace Parser

/-! ### The parser -/

/-- The table of a parser is `table`, and the token ahead is valid in it. -/
structure Holds (table : Table) (p : Parser) : Prop where
  table_eq : p.lexer.table = table
  ahead : ∀ t, p.lookahead = some t → t.ValidIn table

/-- A run beside itself, in the worlds of the tables of its lexer. -/
def holding : Simulation Table where
  later := Table.GrowsTo
  state table p q := p = q ∧ Holds table p
  token table t u := t = u ∧ t.ValidIn table
  failed table x y := x = y ∧ Holds table x.2

variable {table : Table} {p q : Parser}

/-- Pulling a token adds its text to the table. -/
theorem Holds.pull {l : Lexer} (h : Holds table (ofLexer l)) :
    holding.Ends table (Parser.pull (ofLexer l)) (Parser.pull (ofLexer l)) := by
  have hgrows := l.growsTo_nextToken
  rw [show l.table = table from h.table_eq] at hgrows
  unfold Parser.pull
  rcases hnext : (ofLexer l).lexer.nextToken with ⟨e | t, l'⟩ <;>
    rw [show l.nextToken = _ from hnext] at hgrows
  · exact .failure hgrows ⟨rfl, rfl, nofun⟩
  · have hvalid := Lexer.validIn_of_nextToken hnext
    refine .answer hgrows ⟨rfl, rfl, ?_⟩ (.of_rel ⟨rfl, hvalid⟩)
    rintro _ ⟨⟩
    exact hvalid

/-- The parser pulls, drops and rejects tokens in ways that keep them valid. -/
theorem sound_holding : holding.Sound where
  refl := Table.GrowsTo.refl
  trans := Table.GrowsTo.trans
  mono hw ht := ⟨ht.1, ht.2.mono hw⟩
  kind ht := congrArg Token.kind ht.1
  pos ht := congrArg Token.pos ht.1
  remaining hs := congrArg Parser.remaining hs.1
  lookahead := by
    rintro table p _ ⟨rfl, h⟩
    cases hp : p.lookahead with
    | none => exact .inl ⟨rfl, rfl⟩
    | some t => exact .inr ⟨t, t, rfl, rfl, rfl, h.ahead t hp⟩
  pull := by
    rintro table ⟨l, _⟩ _ ⟨rfl, h⟩ ⟨⟩ -
    exact h.pull
  drop := by
    rintro table p _ t u ⟨rfl, h⟩ - - -
    exact ⟨rfl, h.table_eq, nofun⟩
  expected := by
    rintro table p _ t u x ⟨rfl, h⟩ - - -
    exact ⟨rfl, h⟩
  unrecognised := by
    rintro table p _ t u ⟨rfl, h⟩ - - -
    exact ⟨rfl, h⟩

/-- Calls keep every handle. -/
theorem growsTo_afterCalls (h : Holds table p) (requests : List Request) :
    Holds (p.afterCalls requests).lexer.table (p.afterCalls requests) ∧
      table.GrowsTo (p.afterCalls requests).lexer.table := by
  obtain ⟨table', hgrows, -, hholds⟩ :=
    sound_holding.afterCalls (fun _ _ _ hf => ⟨rfl, hf.2⟩) ⟨rfl, h⟩ requests
  rw [hholds.table_eq]
  exact ⟨hholds, hgrows⟩

/-! ### Answers -/

/-- The tokens of an answer. -/
def Request.tokens : (r : Request) → r.Answer → List Token
  | program => Program.tokens
  | block => Block.tokens
  | stmt => Stmt.tokens
  | expr => Expr.tokens

theorem Request.tokens_mapTokens (r : Request) (g : Token → Token) (a : r.Answer) :
    r.tokens (HasTokens.mapTokens g a) = (r.tokens a).map g := by
  cases r with
  | program => exact Program.tokens_mapTokens g a
  | block => exact Block.tokens_mapTokens g a
  | stmt => exact Stmt.tokens_mapTokens g a
  | expr => exact Expr.tokens_mapTokens g a

/-- The tokens of an answer are of the kinds that their places ask for. -/
def Request.WellKinded : (r : Request) → r.Answer → Prop
  | program => fun prog => Stmt.WellKindedAll (Program.stmts prog)
  | block => Block.WellKinded
  | stmt => Stmt.WellKinded
  | expr => Expr.WellKinded

/-- What is derived has tokens of the kinds that the rules ask for, and answers are derived. -/
theorem wellKinded_of_parse {r : Request} {a : r.Answer} (h : r.parse p = (.ok a, q)) :
    r.WellKinded a := by
  have hderives := Request.derives_of_parse h
  cases r with
  | program => exact Grammar.StmtsAt.wellKinded hderives
  | block => exact Grammar.BlockAt.wellKinded hderives
  | stmt => exact Grammar.StmtAt.wellKinded hderives
  | expr => exact Grammar.ExprAt.wellKinded hderives

/-- **The tokens of an answer are valid** in the table that the call leaves. -/
theorem validIn_of_parse {r : Request} {a : r.Answer} (hp : Holds table p)
    (h : r.parse p = (.ok a, q)) :
    Holds q.lexer.table q ∧ ∀ t ∈ r.tokens a, t.ValidIn q.lexer.table := by
  have hparse := sound_holding.parse ⟨rfl, hp⟩ r
  rw [h] at hparse
  obtain ⟨table', -, ⟨-, hq⟩, ha⟩ := hparse
  rw [hq.table_eq]
  exact ⟨hq, ha.forall_mem r.tokens_mapTokens fun _ _ ht => ht⟩

/-- **Handles stay valid**, over every table that may hold texts already and after any calls, of the
lexer and then of a parser over it.

* A token has a handle just when it is a name, a number or a string, and whatever is read after it,
  the handle has a text.
* The buffer never holds more than its bound, and nothing after a token that was stored.
* The lexer of a parser is one that was asked for tokens, so this is true of it as well.
* In an answer, names and parameters are identifiers and literals are of their kinds, and all its
  tokens are valid from then on. -/
theorem handles_valid (source : Text) (table : Table) (limit n : Nat) (before : List Request) :
    let start := Lexer.ofText source table limit
    let l := start.asked n
    let p := (ofLexer l).afterCalls before
    (∀ t l', l.nextToken = (.ok t, l') →
      (∀ k after, t.ValidIn ((ofLexer (l'.asked k)).afterCalls after).lexer.table) ∧
      (t.kind.hasValue ∨ t.kind ∈ TokenKind.keywords → l'.scanner.buffer = [])) ∧
    l.scanner.buffer.length ≤ limit ∧
    (∃ k, p.lexer = start.asked k) ∧ p.lexer.scanner.buffer.length ≤ limit ∧
    ∀ (r : Request) (a : r.Answer) (q : Parser), r.parse p = (.ok a, q) → r.WellKinded a ∧
      ∀ t ∈ r.tokens a, ∀ after, t.ValidIn (q.afterCalls after).lexer.table := by
  intro start l p
  have hfresh (l : Lexer) : Holds l.table (ofLexer l) := ⟨rfl, nofun⟩
  have hlexer : ∃ k, p.lexer = start.asked k := by
    obtain ⟨log, htrace⟩ := exists_trace_afterCalls before (ofLexer l)
    exact ⟨_, htrace.answers_eq.2.trans (start.asked_add n _)⟩
  have hholds := (growsTo_afterCalls (hfresh l) before).1
  refine ⟨fun t l' h => ⟨fun k after => ?_, fun ht => ?_⟩,
    Lexer.length_buffer_le source table limit n, hlexer, ?_, fun r a q h => ?_⟩
  · have hgrows := (l'.growsTo_asked k).trans (growsTo_afterCalls (hfresh _) after).2
    exact (Lexer.validIn_of_nextToken h).mono hgrows
  · refine Lexer.buffer_eq_nil h ?_
    simpa [TokenKind.isStored] using ht
  · obtain ⟨k, hk⟩ := hlexer
    rw [hk]
    exact Lexer.length_buffer_le source table limit k
  · obtain ⟨hq, hvalid⟩ := validIn_of_parse hholds h
    refine ⟨wellKinded_of_parse h, fun t ht after => ?_⟩
    exact (hvalid t ht).mono (growsTo_afterCalls hq after).2

end Parser

end ScriptLang
