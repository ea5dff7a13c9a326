import ScriptLang.Proofs.Lexer.Reports
import ScriptLang.Proofs.Parser.Calls
import ScriptLang.Proofs.Parser.Stream

/-!
# What the parser takes from its lexer

All that a parser does with its state is to ask the lexer while no token is ahead, and to take the
token ahead if it is not the end of the source.  A `Trace` is a run of such steps and its log says
what was answered and what was taken.  From every state there is at most one step, so a trace can be
followed in one way only, and two traces to the same state take the same tokens
(`Trace.taken_unique`).

* `Trace.taken_append_lookahead`: what is taken, and then the token ahead, is what was pulled.
* `Trace.remaining_add_taken_le`: a token taken leaves less to read.
* `trace_parse`: every call is a trace, and a call that fails stops at the token it complains about.
* **A syntax error takes no token** (`syntax_error_keeps_token`).
-/

namespace ScriptLang

namespace Lexer

/-- The answers of a lexer that is asked for `n` tokens. -/
def answers (l : Lexer) : Nat → List (Except LexError Token)
  | 0 => []
  | n + 1 => l.nextToken.1 :: l.nextToken.2.answers n

theorem asked_add (l : Lexer) (n m : Nat) : (l.asked n).asked m = l.asked (n + m) := by
  induction m with
  | zero => rfl
  | succ m ih => exact congrArg (fun l : Lexer => l.nextToken.2) ih

theorem asked_succ (l : Lexer) (n : Nat) : l.asked (n + 1) = l.nextToken.2.asked n := by
  rw [Nat.add_comm, ← asked_add]
  rfl

end Lexer

namespace Parser

/-! ### Steps -/

/-- The lexer was asked for a token, or a token was taken. -/
inductive Event where
  | asked (answer : Except LexError Token)
  | took (t : Token)

/-- What the lexer answered. -/
def Event.answer? : Event → Option (Except LexError Token)
  | asked answer => some answer
  | took _ => none

/-- The token that was taken. -/
def Event.token? : Event → Option Token
  | asked _ => none
  | took t => some t

/-- The answers of the lexer, in order. -/
def answers (log : List Event) : List (Except LexError Token) := log.filterMap Event.answer?

/-- The tokens that the lexer gave, in order. -/
def pulled (log : List Event) : List Token := (answers log).filterMap Except.toOption

/-- The tokens that were taken, in order. -/
def taken (log : List Event) : List Token := log.filterMap Event.token?

section Log

variable (answer : Except LexError Token) (t : Token) (log log' : List Event)

@[simp] theorem answers_nil : answers [] = [] := rfl

@[simp] theorem answers_asked : answers (.asked answer :: log) = answer :: answers log := rfl

@[simp] theorem answers_took : answers (.took t :: log) = answers log := rfl

@[simp] theorem answers_append : answers (log ++ log') = answers log ++ answers log' :=
  List.filterMap_append

@[simp] theorem pulled_nil : pulled [] = [] := rfl

@[simp] theorem pulled_asked :
    pulled (.asked answer :: log) = answer.toOption.toList ++ pulled log := by
  cases answer <;> rfl

@[simp] theorem pulled_took : pulled (.took t :: log) = pulled log := rfl

@[simp] theorem pulled_append : pulled (log ++ log') = pulled log ++ pulled log' := by
  rw [pulled, answers_append, List.filterMap_append, pulled, pulled]

@[simp] theorem taken_nil : taken [] = [] := rfl

@[simp] theorem taken_asked : taken (.asked answer :: log) = taken log := rfl

@[simp] theorem taken_took : taken (.took t :: log) = t :: taken log := rfl

@[simp] theorem taken_append : taken (log ++ log') = taken log ++ taken log' :=
  List.filterMap_append

end Log

/-- A parser without a token ahead asks the lexer, and a token ahead is taken unless it is the end
of the source. -/
inductive Step : Parser → Event → Parser → Prop where
  | ask {p : Parser} (hp : p.lookahead = none) :
      Step p (.asked p.lexer.nextToken.1)
        { lexer := p.lexer.nextToken.2, lookahead := p.lexer.nextToken.1.toOption }
  | take {p : Parser} {t : Token} (hp : p.lookahead = some t) (ht : t.kind ≠ .eof) :
      Step p (.took t) { p with lookahead := none }

/-- A run of steps with its log. -/
inductive Trace : Parser → List Event → Parser → Prop where
  | refl (p : Parser) : Trace p [] p
  | more {p q r : Parser} {e : Event} {log : List Event} (h : Step p e q) (t : Trace q log r) :
      Trace p (e :: log) r

variable {p q r : Parser} {e e' : Event} {log log' : List Event} {t : Token}

/-- What comes next is determined by whether a token is ahead, and which. -/
theorem Step.deterministic (h : Step p e q) (h' : Step p e' r) : e = e' ∧ q = r := by
  cases h with
  | ask hp =>
      cases h' with
      | ask => exact ⟨rfl, rfl⟩
      | take hp' => cases hp.symm.trans hp'
  | take hp =>
      cases h' with
      | ask hp' => cases hp.symm.trans hp'
      | take hp' =>
          cases hp.symm.trans hp'
          exact ⟨rfl, rfl⟩

/-- One step leaves no more to read, and less if it takes a token. -/
theorem Step.remaining_add_taken_le (h : Step p e q) :
    q.remaining + (taken [e]).length ≤ p.remaining := by
  cases h with
  | ask hp =>
      have hpeek := settles_peek p
      simp only [Settles, peek, hp, pull] at hpeek
      rcases hnext : p.lexer.nextToken with ⟨e | t, l⟩ <;> rw [hnext] at hpeek <;> exact hpeek
  | @take t hp ht =>
      have hadvance := settles_advance hp ht
      rwa [Settles, advance_of_lookahead hp ht] at hadvance

namespace Trace

theorem one (h : Step p e q) : Trace p [e] q := .more h (.refl q)

theorem trans (h : Trace p log q) (h' : Trace q log' r) : Trace p (log ++ log') r := by
  induction h with
  | refl => exact h'
  | more h _ ih => exact .more h (ih h')

/-- Of two traces from one state, one goes on where the other ends. -/
theorem total (h : Trace p log q) (h' : Trace p log' r) :
    (∃ more, log' = log ++ more ∧ Trace q more r) ∨
      ∃ more, log = log' ++ more ∧ Trace r more q := by
  induction h generalizing log' with
  | refl => exact .inl ⟨log', rfl, h'⟩
  | more h t ih =>
      cases h' with
      | refl => exact .inr ⟨_, rfl, .more h t⟩
      | more h' t' =>
          obtain ⟨rfl, rfl⟩ := h.deterministic h'
          rcases ih t' with ⟨more, rfl, hmore⟩ | ⟨more, rfl, hmore⟩
          · exact .inl ⟨more, rfl, hmore⟩
          · exact .inr ⟨more, rfl, hmore⟩

/-- A token taken leaves less to read. -/
theorem remaining_add_taken_le (h : Trace p log q) :
    q.remaining + (taken log).length ≤ p.remaining := by
  induction h with
  | refl => exact Nat.le_refl _
  | @more _ _ _ e log h _ ih =>
      have hstep := h.remaining_add_taken_le
      rw [← List.singleton_append, taken_append, List.length_append]
      omega

/-- **What was taken is determined** by where a trace begins and ends. -/
theorem taken_unique (h : Trace p log q) (h' : Trace p log' q) : taken log' = taken log := by
  have hloop : ∀ {more}, Trace q more q → taken more = [] := fun hmore => by
    have hle := hmore.remaining_add_taken_le
    exact List.length_eq_zero_iff.mp (by omega)
  rcases h.total h' with ⟨more, rfl, hmore⟩ | ⟨more, rfl, hmore⟩ <;>
    rw [taken_append, hloop hmore, List.append_nil]

/-- **The tokens taken, and then the token ahead**, are the one that was ahead and then those that
were pulled. -/
theorem taken_append_lookahead (h : Trace p log q) :
    taken log ++ q.lookahead.toList = p.lookahead.toList ++ pulled log := by
  induction h with
  | refl p => exact (List.append_nil _).symm
  | more h _ ih =>
      cases h with
      | ask hp =>
          rw [hp, taken_asked, pulled_asked]
          exact ih
      | @take t hp =>
          rw [hp, taken_took, pulled_took]
          exact congrArg (List.cons t) ih

/-- A trace asks its lexer as often as its log has answers, and has the answers of the lexer. -/
theorem answers_eq (h : Trace p log q) :
    answers log = p.lexer.answers (answers log).length ∧
      q.lexer = p.lexer.asked (answers log).length := by
  induction h with
  | refl => exact ⟨rfl, rfl⟩
  | @more _ _ _ e log h _ ih =>
      cases h with
      | ask =>
          refine ⟨congrArg (List.cons _) ih.1, ?_⟩
          exact ih.2.trans (Lexer.asked_succ _ _).symm
      | take => exact ih

/-- Nothing happens behind the end of the source. -/
theorem eq_of_eof (h : Trace p log q) (hp : p.lookahead = some t) (ht : t.kind = .eof) :
    log = [] ∧ q = p := by
  cases h with
  | refl => exact ⟨rfl, rfl⟩
  | more h =>
      cases h with
      | ask hp' => cases hp.symm.trans hp'
      | take hp' ht' =>
          cases hp.symm.trans hp'
          exact absurd ht ht'

/-- The end of the source stays ahead once it was pulled. -/
theorem lookahead_of_eof (h : Trace p log q) (hmem : t ∈ pulled log) (ht : t.kind = .eof) :
    q.lookahead = some t := by
  induction h with
  | refl => cases hmem
  | more h htrace ih =>
      cases h with
      | take => exact ih hmem
      | ask hp =>
          rw [pulled_asked] at hmem
          rcases List.mem_append.mp hmem with hmem | hmem
          · have hahead := Option.mem_toList.mp hmem
            rw [(htrace.eq_of_eof hahead ht).2]
            exact hahead
          · exact ih hmem

end Trace

/-! ### Calls -/

/-- The lexer gave a token each time it was asked. -/
def Unfailing (log : List Event) : Prop := (answers log).length = (pulled log).length

/-- The parser `q` stands where the error arose: no token could be read, or the token that does not
fit is still ahead. -/
inductive Stopped (q : Parser) : ParseError → Prop where
  | lex (hq : q.lookahead = none) (e : LexError) : Stopped q (.lex e)
  | expected {t : Token} (hq : q.lookahead = some t) (x : Expectation) :
      Stopped q (.expected x t.kind t.pos)
  | unrecognised {t : Token} (hq : q.lookahead = some t) : Stopped q (.unrecognised t.pos)

/-- A call from `start` that fails: it is a trace that stops where the error arose, and it asks at
most once more than it takes. -/
structure Failed (start : Parser) (e : ParseError) (q : Parser) : Prop where
  stopped : Stopped q e
  trace : ∃ log, Trace start log q ∧ (answers log).length ≤ (taken log).length + 1

/-- A run from `start` beside itself.  Nothing is known of it but that it is a trace. -/
def tracing (start : Parser) : Simulation Unit where
  later := Eq
  state _ p q := p = q ∧ ∃ log, Trace start log p ∧ Unfailing log
  token _ t u := t = u
  failed _ x y := x = y ∧ Failed start x.1 x.2

/-- As long as the lexer does not fail, all that it answered was taken or is ahead. -/
theorem Trace.length_answers_le (h : Trace p log q) (hlog : Unfailing log) :
    (answers log).length ≤ (taken log).length + q.lookahead.toList.length := by
  have heq := congrArg List.length h.taken_append_lookahead
  simp only [List.length_append] at heq
  rw [hlog]
  omega

/-- A call fails as described if it stops at the token ahead: all that was pulled before is
taken. -/
theorem Failed.of_lookahead {x : ParseError} (h : Trace p log q) (hlog : Unfailing log)
    (hq : q.lookahead = some t) (hx : Stopped q x) : Failed p x q := by
  have hle := h.length_answers_le hlog
  rw [hq] at hle
  exact ⟨hx, log, h, hle⟩

/-- Asking the lexer is a step. -/
theorem ends_pull {start : Parser} {l : Lexer} (h : Trace start log (ofLexer l))
    (hlog : Unfailing log) : (tracing start).Ends () (pull (ofLexer l)) (pull (ofLexer l)) := by
  have hnext := h.trans (.one (.ask rfl))
  unfold pull
  rcases hanswer : (ofLexer l).lexer.nextToken with ⟨e | t, l'⟩ <;> rw [hanswer] at hnext
  · have hle := h.length_answers_le hlog
    have hfailed : Failed start (.lex e) (ofLexer l') :=
      ⟨.lex rfl e, _, hnext, by simpa [ofLexer] using hle⟩
    exact .failure rfl ⟨rfl, hfailed⟩
  · refine .answer rfl ⟨rfl, _, hnext, ?_⟩ (.of_rel rfl)
    simpa [Unfailing, Except.toOption] using hlog

/-- All the parser does is to take such steps, and it rejects only at the token ahead. -/
theorem sound_tracing (start : Parser) : (tracing start).Sound where
  refl := Eq.refl
  trans := Eq.trans
  mono _ ht := ht
  kind ht := congrArg Token.kind ht
  pos ht := congrArg Token.pos ht
  remaining hs := congrArg Parser.remaining hs.1
  lookahead := by
    rintro _ p _ ⟨rfl, -⟩
    cases hp : p.lookahead with
    | none => exact .inl ⟨rfl, rfl⟩
    | some t => exact .inr ⟨t, t, rfl, rfl, rfl⟩
  pull := by
    rintro _ ⟨l, _⟩ _ ⟨rfl, log, h, hlog⟩ ⟨⟩ -
    exact ends_pull h hlog
  drop := by
    rintro _ p _ t u ⟨rfl, log, h, hlog⟩ hp - ht
    refine ⟨rfl, _, h.trans (.one (.take hp ht)), ?_⟩
    simpa [Unfailing] using hlog
  expected := by
    rintro _ p _ t u x ⟨rfl, log, h, hlog⟩ hp - -
    exact ⟨rfl, .of_lookahead h hlog hp (.expected hp x)⟩
  unrecognised := by
    rintro _ p _ t u ⟨rfl, log, h, hlog⟩ hp - -
    exact ⟨rfl, .of_lookahead h hlog hp (.unrecognised hp)⟩

/-- **One call** is a trace.  If it answers then the lexer never failed, and if it fails then the
parser stands where the error arose. -/
theorem trace_parse (r : Request) (p : Parser) :
    match r.parse p with
    | (.ok _, q) => ∃ log, Trace p log q ∧ Unfailing log
    | (.error e, q) => Failed p e q := by
  have hstart : (tracing p).state () p p := ⟨rfl, [], .refl p, rfl⟩
  have hparse := (sound_tracing p).parse hstart r
  generalize r.parse p = result at hparse
  obtain ⟨e | a, q⟩ := result
  · obtain ⟨_, -, -, hfailed⟩ := hparse
    exact hfailed
  · obtain ⟨_, -, ⟨-, htrace⟩, -⟩ := hparse
    exact htrace

/-- Every call is a trace, whether it fails or not, that asks at most once more than it takes. -/
theorem exists_trace_parse (r : Request) (p : Parser) :
    ∃ log, Trace p log (r.parse p).2 ∧ (answers log).length ≤ (taken log).length + 1 := by
  have hparse := trace_parse r p
  generalize r.parse p = result at hparse
  obtain ⟨e | a, q⟩ := result
  · exact hparse.trace
  · obtain ⟨log, htrace, hlog⟩ := hparse
    refine ⟨log, htrace, Nat.le_trans (htrace.length_answers_le hlog) ?_⟩
    exact Nat.add_le_add_left Option.length_toList_le _

/-- **All calls** are traces. -/
theorem exists_trace_afterCalls (requests : List Request) (p : Parser) :
    ∃ log, Trace p log (p.afterCalls requests) := by
  induction requests generalizing p with
  | nil => exact ⟨[], .refl p⟩
  | cons r requests ih =>
      obtain ⟨log, htrace, -⟩ := exists_trace_parse r p
      obtain ⟨log', htrace'⟩ := ih (r.parse p).2
      exact ⟨log ++ log', htrace.trans htrace'⟩

/-- Calls do nothing once the end of the source is ahead. -/
theorem afterCalls_of_eof (hp : p.lookahead = some t) (ht : t.kind = .eof)
    (requests : List Request) : p.afterCalls requests = p := by
  obtain ⟨log, htrace⟩ := exists_trace_afterCalls requests p
  exact (htrace.eq_of_eof hp ht).2

/-- **A syntax error takes no token**, whatever was asked of the parser before and however that
ended.

* After an error about a token, that token is ahead, and it is what the parser looks at next.
* All calls together are a trace from the start of the lexer.  What it takes is determined, and with
  the token ahead it makes up the tokens among the answers of the lexer.
* The end of the source stays ahead once it was pulled, and no call does anything then. -/
theorem syntax_error_keeps_token (l : Lexer) (before : List Request) (r : Request) :
    let p := (ofLexer l).afterCalls before
    let q := (r.parse p).2
    (∀ x kind pos, (r.parse p).1 = .error (.expected x kind pos) →
      ∃ t, q.lookahead = some t ∧ t.kind = kind ∧ t.pos = pos ∧ peek q = (.ok t, q)) ∧
    (∀ pos, (r.parse p).1 = .error (.unrecognised pos) →
      ∃ t, q.lookahead = some t ∧ t.pos = pos ∧ peek q = (.ok t, q)) ∧
    (∃ log now, Trace (ofLexer l) log p ∧ Trace p now q) ∧
    (∀ log, Trace (ofLexer l) log q → ∃ n,
      answers log = l.answers n ∧ q.lexer = l.asked n ∧
      taken log ++ q.lookahead.toList = (l.answers n).filterMap Except.toOption ∧
      (∀ t, .ok t ∈ l.answers n → t.kind = .eof → q.lookahead = some t) ∧
      ∀ log', Trace (ofLexer l) log' q → taken log' = taken log) ∧
    ∀ t, p.lookahead = some t → t.kind = .eof → ∀ after, p.afterCalls after = p := by
  intro p q
  have hcall := trace_parse r p
  refine ⟨fun x kind pos h => ?_, fun pos h => ?_, ?_, fun log h => ?_, fun t hp ht after => ?_⟩
  · rw [show r.parse p = (.error (.expected x kind pos), q) from Prod.ext h rfl] at hcall
    cases hcall.stopped with
    | @expected t hq => exact ⟨t, hq, rfl, rfl, peek_of_lookahead hq⟩
  · rw [show r.parse p = (.error (.unrecognised pos), q) from Prod.ext h rfl] at hcall
    cases hcall.stopped with
    | @unrecognised t hq => exact ⟨t, hq, rfl, peek_of_lookahead hq⟩
  · obtain ⟨log, hlog⟩ := exists_trace_afterCalls before (ofLexer l)
    obtain ⟨now, hnow, -⟩ := exists_trace_parse r p
    exact ⟨log, now, hlog, hnow⟩
  · have hanswers : answers log = l.answers (answers log).length := h.answers_eq.1
    refine ⟨_, hanswers, h.answers_eq.2, ?_, fun t hmem ht => ?_, fun log' h' => h.taken_unique h'⟩
    · rw [← hanswers]
      exact h.taken_append_lookahead
    · rw [← hanswers] at hmem
      exact h.lookahead_of_eof (List.mem_filterMap.mpr ⟨_, hmem, rfl⟩) ht
  · exact afterCalls_of_eof hp ht after

end Parser

end ScriptLang
