import ScriptLang.Proofs.Lowering
import ScriptLang.Proofs.Parser.Correctness

/-!
# Running the expression of a source

The literals of a parsed expression are tokens of its source (`ExprAt.mem_of_literal`), so a string
among them has its handle, and a ground expression can be lowered (`resolved_of_parse`).  What the
run of its code does is then read off the last machine that the run reaches:

* **Lowering preserves meaning** (`run_lowered`).  The machine stops at the end of the code with the
  value of the expression in its cell (`Machine.EndsWith`), or it stops at the first node without a
  value with the error of that node (`Machine.StopsAt`).
-/

namespace ScriptLang

open ScriptLang.Expr

namespace Grammar

/-- The leaves of a tree are those of its operands. -/
theorem Tree.mem_postorder {first e : Expr} {items : List Item} (h : Tree first items e)
    {n : Expr} (hn : n ∈ e.postorder) (hop : n.isOperator = false) :
    n ∈ first.postorder ∨ ∃ i ∈ items, n ∈ i.operand.postorder := by
  induction h with
  | single => exact .inl hn
  | @node first lhs rhs before after i _ _ _ _ ihl ihr =>
      simp only [postorder, List.mem_append, List.mem_singleton] at hn
      rcases hn with (hn | hn) | rfl
      · rcases ihl hn with h | ⟨j, hj, h⟩
        · exact .inl h
        · exact .inr ⟨j, List.mem_append_left _ hj, h⟩
      · rcases ihr hn with h | ⟨j, hj, h⟩
        · exact .inr ⟨i, by simp, h⟩
        · exact .inr ⟨j, by simp [hj], h⟩
      · cases hop

mutual

theorem PrimaryAt.mem_of_literal {t : Token} : ∀ {ts e rest}, PrimaryAt ts e rest →
    .literal t ∈ e.postorder → t ∈ ts
  | _, _, _, .literal _ => fun h => by
      simp only [postorder, List.mem_singleton, literal.injEq] at h
      simp [h]
  | _, _, _, .parens _ he _ => fun h => List.mem_cons_of_mem _ (he.mem_of_literal h)
  | _, _, _, .func .. => fun h => by simp [postorder] at h
  | _, _, _, .call _ => fun h => by simp [postorder] at h

theorem UnaryAt.mem_of_literal {t : Token} : ∀ {ts e rest}, UnaryAt ts e rest →
    .literal t ∈ e.postorder → t ∈ ts
  | _, _, _, .sign _ he => fun h => by
      simp only [postorder, List.mem_append, List.mem_singleton, reduceCtorEq, or_false] at h
      exact List.mem_cons_of_mem _ (he.mem_of_literal h)
  | _, _, _, .primary he => he.mem_of_literal

theorem ItemsAt.mem_of_literal {t : Token} : ∀ {ts items rest}, ItemsAt ts items rest →
    ∀ i ∈ items, .literal t ∈ i.operand.postorder → t ∈ ts
  | _, _, _, .nil _ => fun i hm => by cases hm
  | _, _, _, .cons _ he hi => fun i hm h => by
      rcases List.mem_cons.mp hm with rfl | hm
      · exact List.mem_cons_of_mem _ (he.mem_of_literal h)
      · exact List.mem_cons_of_mem _ (he.suffix.subset (hi.mem_of_literal i hm h))

/-- The literals of an expression are among its tokens. -/
theorem ExprAt.mem_of_literal {t : Token} : ∀ {ts e rest}, ExprAt ts e rest →
    .literal t ∈ e.postorder → t ∈ ts
  | _, _, _, .mk hf hi ht => fun h => by
      rcases ht.mem_postorder h rfl with h | ⟨i, hm, h⟩
      · exact hf.mem_of_literal h
      · exact hf.suffix.subset (hi.mem_of_literal i hm h)

end

end Grammar

/-! ### Ground expressions of a source -/

theorem Expr.exprAt_of_parse {source : Text} {options : LexerOptions} {e : Expr}
    {table : Intern.Table} (h : Expr.parse source options = .ok (e, table)) :
    ∃ rest, Grammar.ExprAt (Parser.ofLexer (.start source options)).ahead.1 e rest := by
  unfold Expr.parse Reading.source at h
  split at h
  next e' q hq =>
    cases h
    rw [Reading.only, Attempt.bind_apply] at hq
    split at hq
    next e'' r hr =>
      have hsound := ((Parser.reads_expr _).sound (Parser.run_eq_ok.mp hr)).1
      rw [Attempt.bind_apply] at hq
      split at hq
      · cases hq
        exact ⟨_, hsound⟩
      · cases hq
    next => cases hq
  next => cases h

/-- The nodes of a ground expression are operators and constants. -/
theorem Expr.mem_of_isGround {table : Intern.Table} : ∀ {e : Expr}, e.isGround table →
    ∀ n ∈ e.postorder, n.isOperator ∨ ∃ t, n = literal t ∧ t.isConstant table
  | literal t, h, n, hn => by
      simp only [postorder, List.mem_singleton] at hn
      exact .inr ⟨t, hn, h⟩
  | unary op x pos, h, n, hn => by
      simp only [postorder, List.mem_append, List.mem_singleton] at hn
      rcases hn with hn | rfl
      · exact mem_of_isGround (show x.isGround table from h) n hn
      · exact .inl rfl
  | binary op l r pos, h, n, hn => by
      simp only [isGround, Bool.and_eq_true] at h
      simp only [postorder, List.mem_append, List.mem_singleton] at hn
      rcases hn with (hn | hn) | rfl
      · exact mem_of_isGround h.1 n hn
      · exact mem_of_isGround h.2 n hn
      · exact .inl rfl

/-- A constant with the handle of its text has a value. -/
theorem Token.isSome_value?_of_isConstant {table : Intern.Table} {t : Token}
    (h : t.isConstant table) (hv : t.value.isSome = t.kind.hasValue) : (t.value? table).isSome := by
  unfold isConstant at h
  unfold value?
  cases hk : t.kind <;> simp only [hk] at h hv ⊢ <;> first | rfl | cases h | skip
  · obtain ⟨decimal, hd⟩ := Option.isSome_iff_exists.mp h
    obtain ⟨text, ht, hd⟩ := Option.bind_eq_some_iff.mp hd
    obtain ⟨symbol, hs, ht⟩ := Option.bind_eq_some_iff.mp ht
    simp [hs, ht, hd]
  · rw [Option.isSome_map, hv]
    rfl

/-- Every constant of a ground expression that is parsed has a value in the table of its source. -/
theorem Expr.resolved_of_parse {source : Text} {options : LexerOptions} {e : Expr}
    {table : Intern.Table} (h : Expr.parse source options = .ok (e, table))
    (hg : e.isGround table) : e.Resolved table := by
  obtain ⟨rest, hexpr⟩ := exprAt_of_parse h
  intro n hn
  rcases mem_of_isGround hg n hn with hop | ⟨t, rfl, hc⟩
  · exact .inl hop
  · have hvalue := Parser.isSome_value_of_mem_ahead rfl t (hexpr.mem_of_literal hn)
    obtain ⟨v, hv⟩ := Option.isSome_iff_exists.mp (Token.isSome_value?_of_isConstant hc hvalue)
    exact .inr ⟨t, v, rfl, hv⟩

/-! ### Runs -/

/-- The machine stands at the end of lowered code, with `v` in the cell of the result and nothing on
its stacks. -/
structure Machine.EndsWith (l : Lowered) (v : Value) (m : Machine) : Prop where
  result : m.memory.get l.result = v
  pc : m.pc = { function := l.load.1, address := l.code.size - 1 }
  fetch : Machine.fetch m = (.ok Instruction.halt, m)
  depth : m.calls.depth = 1
  stack : m.calls.current.stack = []

/-- The machine stands at the operator `n`, the first node without a value: the cells before its own
hold the values of their nodes, and neither it nor an operator after it has filled its cell. -/
structure Machine.StopsAt (table : Intern.Table) (before : List Expr) (n : Expr)
    (after : List Expr) (err : RuntimeError) (m : Machine) : Prop where
  operator : n.isOperator
  error : n.eval table = .error err
  span : err.location = .at n.span
  holds : ∀ (i : Nat) (x : Expr), before[i]? = some x → x.eval table = .ok (m.memory.get i)
  blank : ∀ (i : Nat) (x : Expr), (n :: after)[i]? = some x → x.isOperator →
    m.memory.get (before.length + i) = .nil

/-- A machine past all nodes stands at the end. -/
theorem Machine.Reached.endsWith {table : Intern.Table} {e : Expr} {v : Value} {m : Machine}
    (h : Reached table 0 e.postorder e.postorder.length m) (hv : e.eval table = .ok v) :
    m.EndsWith (e.lowered table) v := by
  have hpc := h.pc
  rw [List.take_length] at hpc
  refine ⟨?_, ?_, ?_, ?_, ?_⟩
  -- The expression is its own last node.
  · have hlast := getLast?_postorder e
    rw [List.getLast?_eq_getElem?] at hlast
    have hlt := (List.getElem?_eq_some_iff.mp hlast).1
    have hholds := h.holds _ e hlast (.inl hlt)
    rw [hv] at hholds
    exact (Except.ok.inj hholds).symm
  · have hload : (e.lowered table).load.1 = 0 := rfl
    rw [hpc, hload]
    simp [lowered]
  · simp [Machine.fetch, hpc, h.code]
  · rw [h.calls]
    rfl
  · rw [h.calls]
    rfl

/-- A machine that cannot go on from a node has stopped there. -/
theorem Machine.Reached.stopsAt {table : Intern.Table} {before after : List Expr} {n : Expr}
    {err : RuntimeError} {m : Machine}
    (h : Reached table 0 (before ++ n :: after) before.length m) (hn : n.eval table = .error err)
    (hspan : err.location = .at n.span) : m.StopsAt table before n after err := by
  refine ⟨?_, hn, hspan, fun i x hx => ?_, fun i x hx hop => ?_⟩
  · cases n with
    | unary | binary => rfl
    | _ => cases hn
  · have hi := (List.getElem?_eq_some_iff.mp hx).1
    exact h.holds i x (by rw [List.getElem?_append_left hi, hx]) (.inl hi)
  · exact h.blank _ x (by rw [List.getElem?_append_right (by omega)]; simpa using hx) (by omega) hop

/-- The seeds of an expression have cells. -/
theorem Expr.seeds_lt {table : Intern.Table} {e : Expr} :
    ∀ s ∈ (e.lowered table).seeds, s.1 < e.postorder.length := by
  intro s hs
  simp only [lowered, nodeSeeds, List.mem_filterMap, Prod.exists] at hs
  obtain ⟨n, i, hmem, hseed⟩ := hs
  have hlt := (List.mem_zipIdx hmem).2.1
  cases n with
  | literal t =>
      simp only [seed?, Option.map_eq_some_iff] at hseed
      obtain ⟨v, -, rfl⟩ := hseed
      simpa using hlt
  | _ => cases hseed

/-- **Lowering preserves meaning.**  The code of a ground expression of a source runs to its end and
leaves the value of the expression, or stops at the first node without a value with its error. -/
theorem Expr.run_lowered {source : Text} {e : Expr} {table : Intern.Table}
    (hparse : Expr.parse source {} = .ok (e, table)) (hground : e.isGround table)
    (hcap : e.postorder.length ≤ memoryCapacity) :
    ∃ l, e.lower? table = some l ∧ l = e.lowered table ∧
      (∀ s ∈ l.seeds, s.1 < memoryCapacity) ∧
      (∀ v, e.eval table = .ok v → ∃ m, m.EndsWith l v ∧
        ∀ fuel, l.code.size ≤ fuel → Machine.run fuel l.load.1 l.load.2 = (.finished, m)) ∧
      ∀ err, e.eval table = .error err → ∃ before n after m,
        e.postorder = before ++ n :: after ∧ m.StopsAt table before n after err ∧
        ∀ fuel, l.code.size ≤ fuel → Machine.run fuel l.load.1 l.load.2 = (.failed err, m) := by
  have he := resolved_of_parse hparse hground
  refine ⟨_, lower?_eq he, rfl, fun s hs => Nat.lt_of_lt_of_le (seeds_lt s hs) hcap, ?_, ?_⟩
  · intro v hv
    obtain ⟨m, hm, hrun⟩ := Machine.run_lowered_of_eval he hcap hv
    exact ⟨m, hm.endsWith hv, hrun⟩
  · intro err herr
    obtain ⟨before, n, after, hsplit, hn, hspan, hbefore⟩ := eval_eq_error e err herr
    obtain ⟨m, hm, hrun⟩ := Machine.run_lowered_of_error he hcap hsplit hbefore hn
    rw [hsplit] at hm
    exact ⟨before, n, after, m, hsplit, hm.stopsAt hn hspan, hrun⟩

/-- The source `-"a"`: the code of its expression stops at the `-`. -/
theorem Expr.run_lowered_negated_string : ∃ e table,
    Expr.parse [45, 34, 97, 34] {} = .ok (e, table) ∧ e.isGround table ∧
      e.postorder.length ≤ memoryCapacity ∧ ∃ l m, e.lower? table = some l ∧
        Machine.run 2 l.load.1 l.load.2 = (.failed (.nonNumericOperand ⟨1, 1⟩), m) := by
  have hparse : Expr.parse [45, 34, 97, 34] {} =
      .ok (.unary .neg (.literal ⟨.str, some ⟨0⟩, ⟨1, 2⟩⟩) ⟨1, 1⟩,
        (Intern.Table.empty .hashOnly).internAll [[36, 97]]) := by rfl
  have hrun := Expr.run_lowered hparse rfl (by decide)
  refine ⟨_, _, hparse, rfl, by decide, ?_⟩
  obtain ⟨l, hl, hl', -, -, herror⟩ := hrun
  obtain ⟨before, n, after, m, -, -, hrun⟩ := herror (.nonNumericOperand ⟨1, 1⟩) rfl
  exact ⟨l, m, hl, hrun 2 (by rw [hl']; decide)⟩

end ScriptLang
