import ScriptLang.Lowering

/-!
# Evaluating expressions

The meaning of an expression over literals and operators, by recursion on the expression: the left
operand, then the right one, then the operator.  `&&` and `||` evaluate both their sides.  An
operator fails at its own position; the first failure is the result.

`Expr.postorder` lists the nodes of an expression in the order in which they are finished.  The
first node in that order that has no value is an operator, and its error is the error of the whole
expression (`eval_eq_error`).
-/

namespace ScriptLang

/-! ### Operators -/

/-- The value of an operator's operand before it. -/
def UnaryOp.apply (pos : Position) (v : Value) : UnaryOp → Except RuntimeError Value
  | not => .ok (.bool v.falsey)
  | neg =>
    match v.number? with
    | some x => .ok (.number (Number.neg x))
    | none => .error (.nonNumericOperand pos)

/-- A calculation with two values that have to be numbers. -/
def Value.calculate (pos : Position) (v w : Value)
    (f : UInt64 → UInt64 → Except RuntimeError Value) : Except RuntimeError Value :=
  match v.number?, w.number? with
  | some x, some y => f x y
  | _, _ => .error (.nonNumericOperand pos)

/-- The value of an operator between two values. -/
def BinOp.apply (pos : Position) (v w : Value) : BinOp → Except RuntimeError Value
  | mul => v.calculate pos w fun x y => .ok (.number (Number.mul x y))
  | div => v.calculate pos w fun x y =>
      if Number.isZero y then .error (.divideByZero pos) else .ok (.number (Number.div x y))
  | add => v.calculate pos w fun x y => .ok (.number (Number.add x y))
  | sub => v.calculate pos w fun x y => .ok (.number (Number.sub x y))
  | ge => v.calculate pos w fun x y => .ok (.bool (Number.le y x))
  | gt => v.calculate pos w fun x y => .ok (.bool (Number.lt y x))
  | le => v.calculate pos w fun x y => .ok (.bool (Number.le x y))
  | lt => v.calculate pos w fun x y => .ok (.bool (Number.lt x y))
  | eq => .ok (.bool (v.looseEq w))
  | neq => .ok (.bool (!v.looseEq w))
  | and => .ok (.bool (v.truthy && w.truthy))
  | or => .ok (.bool (v.truthy || w.truthy))

/-- An operator fails at its own position. -/
theorem UnaryOp.location_of_apply {op : UnaryOp} {pos : Position} {v : Value} {err : RuntimeError}
    (h : op.apply pos v = .error err) : err.location = .at pos := by
  cases op with
  | not => simp [apply] at h
  | neg =>
      simp only [apply] at h
      split at h
      · simp at h
      · cases h; rfl

/-- Errors of arithmetic are at the operator: operands that are no numbers, and whatever the
operation itself refuses. -/
theorem Value.location_of_calculate {pos : Position} {v w : Value} {err : RuntimeError}
    {f : UInt64 → UInt64 → Except RuntimeError Value}
    (hf : ∀ x y, f x y = .error err → err.location = .at pos)
    (h : v.calculate pos w f = .error err) : err.location = .at pos := by
  unfold calculate at h
  split at h
  · exact hf _ _ h
  · cases h; rfl

/-- A binary operator fails at its own position. -/
theorem BinOp.location_of_apply {op : BinOp} {pos : Position} {v w : Value} {err : RuntimeError}
    (h : op.apply pos v w = .error err) : err.location = .at pos := by
  cases op with
  | eq | neq | and | or => simp [apply] at h
  | mul | add | sub | ge | gt | le | lt =>
      exact Value.location_of_calculate (fun _ _ hf => by simp at hf) h
  | div =>
      refine Value.location_of_calculate (fun x y hf => ?_) h
      split at hf
      · cases hf; rfl
      · simp at hf

/-! ### Expressions -/

/-- Whether a token stands for a value by itself: a number whose text is a decimal, a string,
`true`, `false` or `nil`. -/
def Token.isConstant (table : Intern.Table) (t : Token) : Bool :=
  match t.kind with
  | .number => ((t.value.bind table.get?).bind Decimal.read?).isSome
  | .str | .trueWord | .falseWord | .nilWord => true
  | _ => false

namespace Expr

/-- Whether an expression is built from constants and operators only. -/
def isGround (table : Intern.Table) : Expr → Bool
  | literal t => t.isConstant table
  | unary _ operand _ => operand.isGround table
  | binary _ lhs rhs _ => lhs.isGround table && rhs.isGround table
  | func .. | call _ => false

/-- The value of an expression.  Names, functions and calls, which no ground expression has, count
as nil. -/
def eval (table : Intern.Table) : Expr → Except RuntimeError Value
  | literal t => .ok ((t.value? table).getD .nil)
  | unary op operand pos => do
    let v ← operand.eval table
    op.apply pos v
  | binary op lhs rhs pos => do
    let v ← lhs.eval table
    let w ← rhs.eval table
    op.apply pos v w
  | func .. | call _ => .ok .nil

/-- The nodes of an expression, operands before their operator and the left before the right. -/
def postorder : Expr → List Expr
  | unary op operand pos => operand.postorder ++ [unary op operand pos]
  | binary op lhs rhs pos => lhs.postorder ++ rhs.postorder ++ [binary op lhs rhs pos]
  | e => [e]

/-- Whether an operator stands at the root. -/
def isOperator : Expr → Bool
  | unary .. | binary .. => true
  | _ => false

variable {table : Intern.Table}

/-- A unary expression has a value just if its operand has one that the operator takes. -/
theorem eval_unary_eq_ok {op : UnaryOp} {operand : Expr} {pos : Position} {v : Value} :
    (unary op operand pos).eval table = .ok v ↔
      ∃ x, operand.eval table = .ok x ∧ op.apply pos x = .ok v := by
  cases h : operand.eval table <;> simp [eval, h, bind, Except.bind]

/-- A binary expression has a value just if both operands have one and the operator takes them. -/
theorem eval_binary_eq_ok {op : BinOp} {lhs rhs : Expr} {pos : Position} {v : Value} :
    (binary op lhs rhs pos).eval table = .ok v ↔
      ∃ x y, lhs.eval table = .ok x ∧ rhs.eval table = .ok y ∧ op.apply pos x y = .ok v := by
  cases hl : lhs.eval table <;> cases hr : rhs.eval table <;>
    simp [eval, hl, hr, bind, Except.bind]

/-! ### Post-order -/

theorem getLast?_postorder (e : Expr) : e.postorder.getLast? = some e := by
  cases e <;> simp [postorder]

/-- An element of `xs ++ [a]` is the last one or one of `xs`. -/
theorem concat_eq_append_cons (xs : List Expr) {before after : List Expr} {a n : Expr}
    (h : xs ++ [a] = before ++ n :: after) :
    (xs = before ∧ a = n) ∨ ∃ after', xs = before ++ n :: after' := by
  rcases List.eq_nil_or_concat after with rfl | ⟨after', b, rfl⟩
  · exact .inl (List.append_singleton_inj.mp h)
  · rw [List.concat_eq_append, ← List.cons_append, ← List.append_assoc] at h
    exact .inr ⟨after', (List.append_singleton_inj.mp h).1⟩

/-- The nodes of a node stand together, right up to the node itself. -/
theorem postorder_split : ∀ (e n : Expr) (before after : List Expr),
    e.postorder = before ++ n :: after → ∃ outer, before ++ [n] = outer ++ n.postorder
  | literal t, n, before, after, h | func ps b pos, n, before, after, h |
    call c, n, before, after, h => by
      rcases concat_eq_append_cons [] h with ⟨rfl, rfl⟩ | ⟨after', h'⟩
      · exact ⟨[], rfl⟩
      · simp at h'
  | unary op x pos, n, before, after, h => by
      rcases concat_eq_append_cons _ h with ⟨rfl, rfl⟩ | ⟨after', h'⟩
      · exact ⟨[], rfl⟩
      · exact postorder_split x n before after' h'
  | binary op l r pos, n, before, after, h => by
      rcases concat_eq_append_cons _ h with ⟨rfl, rfl⟩ | ⟨after', h'⟩
      · exact ⟨[], rfl⟩
      -- The node is one of the right operand, or one of the left.
      · rcases List.append_eq_append_iff.mp h' with ⟨mid, rfl, hr⟩ | ⟨mid, hl, hn⟩
        · obtain ⟨outer, ho⟩ := postorder_split r n mid after' hr
          exact ⟨l.postorder ++ outer, by rw [List.append_assoc, ho, List.append_assoc]⟩
        · cases mid with
          | nil =>
              rw [List.append_nil] at hl
              obtain ⟨outer, ho⟩ := postorder_split r n [] after' hn.symm
              exact ⟨before ++ outer, by rw [List.append_assoc, ← ho]; rfl⟩
          | cons m mid =>
              obtain ⟨rfl, rfl⟩ := List.cons.inj hn
              exact postorder_split l n before mid hl

/-- The last of the nodes of `n` is `n`, also when further nodes follow them up to place `k`. -/
theorem getElem?_of_postorder {nodes before : List Expr} (after : List Expr) {n : Expr} {k : Nat}
    (h : nodes.take k = before ++ n.postorder ++ after) (hk : k ≤ nodes.length) :
    k - after.length - 1 < k ∧ nodes[k - after.length - 1]? = some n := by
  have hlen : k = (before ++ n.postorder).length + after.length := by
    rw [← List.length_append, ← h, List.length_take, Nat.min_eq_left hk]
  have hpos : 0 < (before ++ n.postorder).length :=
    List.length_pos_of_mem
      (List.mem_append_right _ (List.mem_of_getLast? (getLast?_postorder n)))
  have hlt : k - after.length - 1 < k := by omega
  refine ⟨hlt, ?_⟩
  calc nodes[k - after.length - 1]?
      = (nodes.take k)[k - after.length - 1]? := (List.getElem?_take_of_lt hlt).symm
    _ = (before ++ n.postorder)[k - after.length - 1]? := by
        rw [h, List.getElem?_append_left (by omega)]
    _ = (before ++ n.postorder).getLast? := by
        rw [List.getLast?_eq_getElem?, hlen, Nat.add_sub_cancel]
    _ = some n := by rw [List.getLast?_append, getLast?_postorder]; rfl

/-- What stands up to a node ends with all nodes below it. -/
theorem take_of_postorder {e n : Expr} {k : Nat} (h : e.postorder[k]? = some n) :
    ∃ outer, e.postorder.take k ++ [n] = outer ++ n.postorder := by
  obtain ⟨hk, rfl⟩ := List.getElem?_eq_some_iff.mp h
  exact postorder_split e _ _ (e.postorder.drop (k + 1)) (by simp)

/-- The operand of a unary node is the node before it. -/
theorem operand_of_postorder {e x : Expr} {op : UnaryOp} {pos : Position} {k : Nat}
    (h : e.postorder[k]? = some (unary op x pos)) : k - 1 < k ∧ e.postorder[k - 1]? = some x := by
  obtain ⟨outer, ho⟩ := take_of_postorder h
  rw [postorder, ← List.append_assoc, List.append_singleton_inj] at ho
  have hk := (List.getElem?_eq_some_iff.mp h).1
  exact getElem?_of_postorder [] (by rw [ho.1, List.append_nil]) (Nat.le_of_lt hk)

/-- The right operand of a binary node is the node before it, and the left operand is the node
before all nodes of the right one. -/
theorem operands_of_postorder {e l r : Expr} {op : BinOp} {pos : Position} {k : Nat}
    (h : e.postorder[k]? = some (binary op l r pos)) :
    (k - 1 - r.postorder.length < k ∧ e.postorder[k - 1 - r.postorder.length]? = some l) ∧
      k - 1 < k ∧ e.postorder[k - 1]? = some r := by
  obtain ⟨outer, ho⟩ := take_of_postorder h
  rw [postorder, ← List.append_assoc, ← List.append_assoc, List.append_singleton_inj] at ho
  have hk := Nat.le_of_lt (List.getElem?_eq_some_iff.mp h).1
  refine ⟨?_, getElem?_of_postorder [] (by rw [ho.1, List.append_nil]) hk⟩
  rw [Nat.sub_right_comm]
  exact getElem?_of_postorder r.postorder ho.1 hk

/-- Every node of an expression that has a value has one. -/
theorem eval_of_mem_postorder : ∀ (e : Expr) (v : Value), e.eval table = .ok v →
    ∀ n ∈ e.postorder, ∃ w, n.eval table = .ok w
  | literal _, v, h, n, hn | func .., v, h, n, hn | call _, v, h, n, hn => by
      rw [postorder, List.mem_singleton] at hn
      · exact ⟨v, hn ▸ h⟩
      all_goals simp
  | unary op x pos, v, h, n, hn => by
      obtain ⟨a, hx, -⟩ := eval_unary_eq_ok.mp h
      rcases List.mem_append.mp hn with hn | hn
      · exact eval_of_mem_postorder x a hx n hn
      · exact ⟨v, List.mem_singleton.mp hn ▸ h⟩
  | binary op l r pos, v, h, n, hn => by
      obtain ⟨a, b, hl, hr, -⟩ := eval_binary_eq_ok.mp h
      rcases List.mem_append.mp hn with hn | hn
      · rcases List.mem_append.mp hn with hn | hn
        · exact eval_of_mem_postorder l a hl n hn
        · exact eval_of_mem_postorder r b hr n hn
      · exact ⟨v, List.mem_singleton.mp hn ▸ h⟩

/-- **The first failure.**  An expression without a value fails as its first node in post-order
without one does, at the position of that node. -/
theorem eval_eq_error : ∀ (e : Expr) (err : RuntimeError), e.eval table = .error err →
    ∃ before n after, e.postorder = before ++ n :: after ∧ n.eval table = .error err ∧
      err.location = .at n.span ∧ ∀ x ∈ before, ∃ w, x.eval table = .ok w
  | literal _, err, h | func .., err, h | call _, err, h => by simp [eval] at h
  | unary op x pos, err, h => by
      cases hx : x.eval table with
      | error e =>
          obtain rfl : e = err := by simpa [eval, hx, bind, Except.bind] using h
          obtain ⟨before, n, after, ho, hn, hs, hb⟩ := eval_eq_error x e hx
          exact ⟨before, n, after ++ [unary op x pos], by simp [postorder, ho], hn, hs, hb⟩
      | ok a =>
          have ha : op.apply pos a = .error err := by
            simpa [eval, hx, bind, Except.bind] using h
          exact ⟨x.postorder, _, [], rfl, h, UnaryOp.location_of_apply ha,
            eval_of_mem_postorder x a hx⟩
  | binary op l r pos, err, h => by
      cases hl : l.eval table with
      | error e =>
          obtain rfl : e = err := by simpa [eval, hl, bind, Except.bind] using h
          obtain ⟨before, n, after, ho, hn, hs, hb⟩ := eval_eq_error l e hl
          exact ⟨before, n, after ++ r.postorder ++ [binary op l r pos], by simp [postorder, ho],
            hn, hs, hb⟩
      -- The right operand is reached only past all nodes of the left one.
      | ok a =>
          have hleft := eval_of_mem_postorder l a hl
          cases hr : r.eval table with
          | error e =>
              obtain rfl : e = err := by simpa [eval, hl, hr, bind, Except.bind] using h
              obtain ⟨before, n, after, ho, hn, hs, hb⟩ := eval_eq_error r e hr
              refine ⟨l.postorder ++ before, n, after ++ [binary op l r pos],
                by simp [postorder, ho], hn, hs, fun x hx => ?_⟩
              rcases List.mem_append.mp hx with hx | hx
              · exact hleft x hx
              · exact hb x hx
          | ok b =>
              have hab : op.apply pos a b = .error err := by
                simpa [eval, hl, hr, bind, Except.bind] using h
              refine ⟨l.postorder ++ r.postorder, _, [], rfl, h, BinOp.location_of_apply hab,
                fun x hx => ?_⟩
              rcases List.mem_append.mp hx with hx | hx
              · exact hleft x hx
              · exact eval_of_mem_postorder r b hr x hx

end Expr

end ScriptLang
