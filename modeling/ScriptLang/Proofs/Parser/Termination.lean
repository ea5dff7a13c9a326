import ScriptLang.Proofs.Parser.Lookahead

/-!
# Every call ends and takes tokens

A bound on nesting that exceeds the length of the source is never reached, whatever calls came
before, because no call leaves more to read than there was.  A call that answers takes just the
tokens that its answer is derived from (`Trace.ahead_eq`), and of an expression, a block or a
statement there is at least one.

* `ExprAt.length_lt` and its like: a derivation takes a token.
* `taken_ne_nil`: a call that answers with anything but a program takes a token.
* **Parsing ends** (`parsing_ends`), and asks the lexer at most once more than the source has bytes.
-/

namespace ScriptLang

/-! ### Derivations take tokens -/

namespace Grammar

variable {ts rest : List Token} {e : Expr}

theorem CallAt.length_lt {c : Call} (h : CallAt ts c rest) : rest.length < ts.length := by
  cases h with
  | mk _ _ he ha =>
      have hcallee := he.suffix.length_le
      have hargs := ha.suffix.length_le
      simp only [List.length_cons] at *
      omega

theorem BlockAt.length_lt {b : Block} (h : BlockAt ts b rest) : rest.length < ts.length := by
  cases h with
  | mk _ hs =>
      have hbody := hs.suffix.length_le
      simp only [List.length_cons] at *
      omega

theorem PrimaryAt.length_lt (h : PrimaryAt ts e rest) : rest.length < ts.length := by
  cases h with
  | literal => exact Nat.lt_succ_self _
  | parens _ he =>
      have hinner := he.suffix.length_le
      simp only [List.length_cons] at *
      omega
  | func _ _ hp _ hb =>
      have hparams := hp.suffix.length_le
      have hbody := hb.suffix.length_le
      simp only [List.length_cons] at *
      omega
  | call hc => exact hc.length_lt

theorem UnaryAt.length_lt (h : UnaryAt ts e rest) : rest.length < ts.length := by
  cases h with
  | sign _ he => exact Nat.lt_succ_of_le he.suffix.length_le
  | primary he => exact he.length_lt

theorem ExprAt.length_lt (h : ExprAt ts e rest) : rest.length < ts.length := by
  cases h with
  | mk hf hi => exact Nat.lt_of_le_of_lt hi.suffix.length_le hf.length_lt

/-- A statement that is neither a call nor a block begins with a name or a keyword, and the rest of
it takes no tokens back. -/
theorem StmtAt.length_lt {s : Stmt} (h : StmtAt ts s rest) : rest.length < ts.length := by
  cases h with
  | assign _ _ he | define _ _ _ he | definePartial _ _ _ _ _ he =>
      have hvalue := he.suffix.length_le
      simp only [List.length_cons]
      omega
  | branch _ he hb | loop _ he hb =>
      have hcondition := he.suffix.length_le
      have hbody := hb.suffix.length_le
      simp only [List.length_cons]
      omega
  | branchElse _ he hb _ hb' =>
      have hcondition := he.suffix.length_le
      have hbody := hb.suffix.length_le
      have helse := hb'.suffix.length_le
      simp only [List.length_cons] at *
      omega
  | ret => exact Nat.lt_succ_self _
  | retValue _ _ he => exact Nat.lt_succ_of_le he.suffix.length_le
  | call hc => exact hc.length_lt
  | block hb => exact hb.length_lt

end Grammar

namespace Parser

variable {p q : Parser} {log : List Event}

/-! ### Calls take tokens -/

/-- **What a trace takes** is what was ahead and is no more, as long as the lexer does not fail. -/
theorem Trace.ahead_eq (h : Trace p log q) (hlog : Unfailing log) :
    p.ahead.1 = taken log ++ q.ahead.1 := by
  induction h with
  | refl => rfl
  | @more p _ _ _ log h _ ih =>
      have hpulled : (pulled log).length ≤ (answers log).length := List.length_filterMap_le _ _
      cases h with
      | ask hp =>
          rcases hanswer : p.lexer.nextToken with ⟨e | t, l⟩ <;> rw [hanswer] at hlog ih
          · have hlength : (answers log).length + 1 = (pulled log).length := hlog
            omega
          · have hpeek : peek p = (.ok t, { lexer := l, lookahead := some t }) := by
              simp [peek, hp, pull, hanswer]
            rw [taken_asked, ← ahead_peek hpeek]
            exact ih (Nat.succ.inj hlog)
      | @take t hp ht =>
          rw [ahead_of_ne_eof (peek_of_lookahead hp) ht, taken_took]
          exact congrArg (List.cons t) (ih hlog)

/-- An answer other than a program leaves fewer tokens ahead. -/
theorem length_ahead_lt {r : Request} {a : r.Answer} (hr : r ≠ .program)
    (h : r.parse p = (.ok a, q)) : q.ahead.1.length < p.ahead.1.length := by
  have hderives := Request.derives_of_parse h
  cases r with
  | program => exact absurd rfl hr
  | block => exact Grammar.BlockAt.length_lt hderives
  | stmt => exact Grammar.StmtAt.length_lt hderives
  | expr => exact Grammar.ExprAt.length_lt hderives

/-- **A call that answers** with anything but a program takes a token. -/
theorem taken_ne_nil {r : Request} {a : r.Answer} (hr : r ≠ .program)
    (h : r.parse p = (.ok a, q)) (htrace : Trace p log q) : taken log ≠ [] := by
  intro hnil
  have hcall := trace_parse r p
  rw [h] at hcall
  obtain ⟨now, hnow, hunfailing⟩ := hcall
  have hahead := hnow.ahead_eq hunfailing
  rw [htrace.taken_unique hnow, hnil] at hahead
  have hlt := length_ahead_lt hr h
  rw [hahead] at hlt
  exact Nat.lt_irrefl _ hlt

/-- Calls leave no more to read. -/
theorem remaining_afterCalls_le (p : Parser) (requests : List Request) :
    (p.afterCalls requests).remaining ≤ p.remaining := by
  obtain ⟨log, htrace⟩ := exists_trace_afterCalls requests p
  exact Nat.le_of_add_right_le htrace.remaining_add_taken_le

end Parser

/-- A token other than the end of the source moves the lexer on. -/
theorem Lexer.offset_lt_of_nextToken {l l' : Lexer} {source : Text} {t : Token}
    (hl : l.remaining ≤ source.length) (h : l.nextToken = (.ok t, l')) (ht : t.kind ≠ .eof) :
    l.offset source < l'.offset source := by
  have hlt := Lexer.length_nextToken_lt h ht
  unfold Lexer.offset
  omega

/-- However often a lexer is asked, it has no more left to read. -/
theorem Lexer.remaining_asked_le (l : Lexer) (n : Nat) : (l.asked n).remaining ≤ l.remaining := by
  induction n with
  | zero => exact Nat.le_refl _
  | succ n ih => exact Nat.le_trans (l.asked n).remaining_nextToken_le ih

namespace Parser

/-- **Parsing ends**, for every source and from every state that calls leave.

* No bound on repetition and nesting that exceeds the length of the source is reached, and all such
  bounds give the answer or the error of the call.
* A call that answers with a statement, a block or an expression takes at least one token.
* A token other than the end of the source moves the lexer on by at least one byte.
* Reading a program from its start asks the lexer at most once more than the source has bytes, and
  pulls no more tokens than that. -/
theorem parsing_ends (source : Text) (table : Intern.Table) (limit : Nat)
    (before : List Request) (r : Request) :
    let l := Lexer.ofText source table limit
    let p := (ofLexer l).afterCalls before
    (∀ n, source.length < n →
      r.within n p = ofReading r.parse p ∧ ∀ q, r.within n p ≠ (.error .exhausted, q)) ∧
    (∀ a q, r.parse p = (.ok a, q) → r ≠ .program →
      (∃ log, Trace p log q) ∧ ∀ log, Trace p log q → taken log ≠ []) ∧
    (∀ n t l', (l.asked n).nextToken = (.ok t, l') → t.kind ≠ .eof →
      (l.asked n).offset source + 1 ≤ l'.offset source) ∧
    (∃ log, Trace (ofLexer l) log (parseProgram (ofLexer l)).2 ∧
      (answers log).length ≤ source.length + 1) ∧
    ∀ log, Trace (ofLexer l) log (parseProgram (ofLexer l)).2 →
      (pulled log).length ≤ source.length + 1 := by
  intro l p
  have hstart : (ofLexer l).remaining = source.length := rfl
  refine ⟨fun n hn => ?_, fun a q h hr => ?_, fun n t l' h ht => ?_, ?_, fun log h => ?_⟩
  · have hp : p.remaining < n := by
      have hle := remaining_afterCalls_le (ofLexer l) before
      exact Nat.lt_of_le_of_lt (hstart ▸ hle) hn
    exact ⟨r.within_eq hp, fun q => (r.settles_within n p hp).ne_exhausted⟩
  · obtain ⟨log, htrace, -⟩ := exists_trace_parse r p
    rw [h] at htrace
    exact ⟨⟨log, htrace⟩, fun log htrace => taken_ne_nil hr h htrace⟩
  · exact Lexer.offset_lt_of_nextToken (l.remaining_asked_le n) h ht
  · obtain ⟨log, htrace, hle⟩ := exists_trace_parse .program (ofLexer l)
    have htaken := htrace.remaining_add_taken_le
    exact ⟨log, htrace, by omega⟩
  · have htaken := h.remaining_add_taken_le
    have hpulled := congrArg List.length h.taken_append_lookahead
    have hahead := @Option.length_toList_le _ (parseProgram (ofLexer l)).2.lookahead
    simp only [List.length_append] at hpulled
    omega

end Parser

end ScriptLang
