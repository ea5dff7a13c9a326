import ScriptLang.Proofs.Parser.Depth

/-!
# The waiting operands make the precedence tree

The textbook reading of binary expressions has a level for every priority: level `p` reads an
operand of level `p + 1` and then, from left to right, every following operator of priority exactly
`p` with its right operand; above the last level stand the operands themselves.

**Layers** (`parseExpr_eq_level`).  The parser, which keeps operands waiting on a stack, does just
what level 5 does, from every state: the same expression with the same spans or the same error, and
the same state after it.

The two are joined by `climb`, the stack that stops at operators of a priority below `lo`.  At 5 it
stops at no operator and is the parser's stack, which never fills up because the priorities on it
rise (`operators_eq_climb`).  One level down, the stack for `lo` is the one for `lo + 1` followed by
the operators of priority `lo` (`climbs_eq_folds`).
-/

namespace ScriptLang.Parser

/-! ### Levels -/

/-- Reads the operators of one priority that follow, each with its right operand, and folds them to
the left. -/
def foldLevel (operand : Parse Expr) (priority : Nat) : Nat → Expr → Parse Expr
  | 0, _ => exhausted
  | n + 1, lhs => do
    let t ← peek
    match BinOp.ofToken? t.kind with
    | none => pure lhs
    | some op =>
      if op.priority = priority then
        let t ← advance
        let rhs ← operand
        foldLevel operand priority n (.binary op lhs rhs t.pos)
      else pure lhs

/-- The expressions of a level: operators of its priority over the next level.  The priorities of
operators end at 10, and past them stand the operands. -/
def level (operand : Parse Expr) (priority : Nat) : Parse Expr :=
  if priority < 11 then do
    let first ← level operand (priority + 1)
    bounded fun n => foldLevel (level operand (priority + 1)) priority n first
  else operand
termination_by 11 - priority

/-! ### Repetition without bounds -/

/-- A stack of waiting operands that stops at operators of a priority below `lo`. -/
def climb (operand : Parse Expr) (lo : Nat) : Nat → List Waiting → Expr → Parse Expr
  | 0, _, _ => exhausted
  | n + 1, waiting, rhs => do
    let t ← peek
    match (BinOp.ofToken? t.kind).filter (lo ≤ ·.priority) with
    | none => pure (closeAll waiting rhs)
    | some op =>
      let t ← advance
      let closed := closeAbove op waiting rhs
      let rhs ← operand
      climb operand lo n ({ lhs := closed.2, op := op, span := t.pos } :: closed.1) rhs

/-- `foldLevel` as often as there are operators. -/
def folds (operand : Parse Expr) (priority : Nat) (lhs : Expr) : Parse Expr :=
  bounded fun n => foldLevel operand priority n lhs

/-- `climb` as often as there are operators. -/
def climbs (operand : Parse Expr) (lo : Nat) (waiting : List Waiting) (rhs : Expr) : Parse Expr :=
  bounded fun n => climb operand lo n waiting rhs

variable {operand : Parse Expr}

/-- The end of the source is no operator, so a token that is one can be taken. -/
theorem ne_eof_of_ofToken? {kind : TokenKind} {op : BinOp} (h : BinOp.ofToken? kind = some op) :
    kind ≠ .eof := by
  rintro rfl
  cases h

/-- Taking an operator and then an operand leaves less to read. -/
theorem remaining_lt_of_operand (ho : ∀ p, Settles 1 operand p) {p q r s : Parser} {t t' : Token}
    {op : BinOp} {e : Expr} (hp : peek p = (.ok t, q)) (hop : BinOp.ofToken? t.kind = some op)
    (hq : advance q = (.ok t', r)) (hr : operand r = (.ok e, s)) : s.remaining < p.remaining := by
  have h₁ := settles_peek p
  have h₂ := settles_advance (lookahead_peek hp) (ne_eof_of_ofToken? hop)
  have h₃ := ho r
  unfold Settles at h₁ h₂ h₃
  rw [hp] at h₁
  rw [hq] at h₂
  rw [hr] at h₃
  dsimp only at h₁ h₂ h₃
  omega

/-- As every turn takes an operator, a level of expressions comes to an end. -/
theorem settles_foldLevel (ho : ∀ p, Settles 1 operand p) {priority : Nat} (n : Nat) (lhs : Expr)
    (p : Parser) (hn : p.remaining < n) : Settles 0 (foldLevel operand priority n lhs) p := by
  induction n generalizing lhs p with
  | zero => omega
  | succ n ih =>
      refine (settles_peek p).bind fun t q hq le => ?_
      split
      next => exact Settles.pure _ q
      next op hop =>
        split
        · have hadv := settles_advance (lookahead_peek hq) (ne_eof_of_ofToken? hop)
          refine hadv.bind fun _ r _ le' => ?_
          refine ((ho r).mono (Nat.zero_le 1)).bind fun _ s _ le'' => ?_
          exact ih _ s (by omega)
        · exact Settles.pure _ q

theorem settles_climb (ho : ∀ p, Settles 1 operand p) {lo : Nat} (n : Nat)
    (waiting : List Waiting) (rhs : Expr) (p : Parser) (hn : p.remaining < n) :
    Settles 0 (climb operand lo n waiting rhs) p := by
  induction n generalizing waiting rhs p with
  | zero => omega
  | succ n ih =>
      refine (settles_peek p).bind fun t q hq le => ?_
      split
      next => exact Settles.pure _ q
      next op hop =>
        have hop := Option.eq_some_of_filter_eq_some hop
        have hadv := settles_advance (lookahead_peek hq) (ne_eof_of_ofToken? hop)
        refine hadv.bind fun _ r _ le' => ?_
        refine ((ho r).mono (Nat.zero_le 1)).bind fun _ s _ le'' => ?_
        exact ih _ _ s (by omega)

/-- More turns keep what a level answers. -/
theorem refines_foldLevel {priority : Nat} (n : Nat) (lhs : Expr) :
    Refines (foldLevel operand priority n lhs) (foldLevel operand priority (n + 1) lhs) := by
  induction n generalizing lhs with
  | zero => exact .exhausted _
  | succ n ih =>
      refine .bind (.refl _) fun t => ?_
      split
      · exact .refl _
      split
      · exact .bind (.refl _) fun _ => .bind (.refl _) fun _ => ih _
      · exact .refl _

theorem refines_climb {lo : Nat} (n : Nat) (waiting : List Waiting) (rhs : Expr) :
    Refines (climb operand lo n waiting rhs) (climb operand lo (n + 1) waiting rhs) := by
  induction n generalizing waiting rhs with
  | zero => exact .exhausted _
  | succ n ih =>
      refine .bind (.refl _) fun t => ?_
      split
      · exact .refl _
      · exact .bind (.refl _) fun _ => .bind (.refl _) fun _ => ih _ _

/-- The operators of a level, one at a time. -/
theorem folds_eq (ho : ∀ p, Settles 1 operand p) (priority : Nat) (lhs : Expr) :
    folds operand priority lhs = (do
      let t ← peek
      match BinOp.ofToken? t.kind with
      | none => pure lhs
      | some op =>
        if op.priority = priority then
          let t ← advance
          let rhs ← operand
          folds operand priority (.binary op lhs rhs t.pos)
        else pure lhs) := by
  funext p
  refine Refines.eq (x := foldLevel operand priority (p.remaining + 1) lhs) ?_
    (settles_foldLevel ho _ _ p (Nat.lt_succ_self _))
  refine .bind (.refl _) fun t => ?_
  split
  · exact .refl _
  split
  · refine .bind (.refl _) fun t => .bind (.refl _) fun rhs => ?_
    exact Refines.bounded (fun n => refines_foldLevel n _)
      (fun q => settles_foldLevel ho _ _ q (Nat.lt_succ_self _)) _
  · exact .refl _

/-- The operators of a stack, one at a time. -/
theorem climbs_eq (ho : ∀ p, Settles 1 operand p) (lo : Nat) (waiting : List Waiting)
    (rhs : Expr) :
    climbs operand lo waiting rhs = (do
      let t ← peek
      match (BinOp.ofToken? t.kind).filter (lo ≤ ·.priority) with
      | none => pure (closeAll waiting rhs)
      | some op =>
        let t ← advance
        let closed := closeAbove op waiting rhs
        let rhs ← operand
        climbs operand lo ({ lhs := closed.2, op := op, span := t.pos } :: closed.1) rhs) := by
  funext p
  refine Refines.eq (x := climb operand lo (p.remaining + 1) waiting rhs) ?_
    (settles_climb ho _ _ _ p (Nat.lt_succ_self _))
  refine .bind (.refl _) fun t => ?_
  split
  · exact .refl _
  · refine .bind (.refl _) fun t => .bind (.refl _) fun rhs => ?_
    exact Refines.bounded (fun n => refines_climb n _ _)
      (fun q => settles_climb ho _ _ _ q (Nat.lt_succ_self _)) _

/-! ### Closing waiting operands -/

theorem closeAll_append (ws vs : List Waiting) (rhs : Expr) :
    closeAll (ws ++ vs) rhs = closeAll vs (closeAll ws rhs) := List.foldl_append

/-- An operator that binds no tighter than any that wait closes them all. -/
theorem closeAbove_of_le {op : BinOp} {ws : List Waiting}
    (h : ∀ w ∈ ws, op.priority ≤ w.op.priority) (rhs : Expr) :
    closeAbove op ws rhs = ([], closeAll ws rhs) := by
  induction ws generalizing rhs with
  | nil => rfl
  | cons w ws ih =>
      rw [closeAbove, if_pos (h w (List.mem_cons_self ..)),
        ih (fun v hv => h v (List.mem_cons_of_mem _ hv))]
      rfl

/-- Operands whose operators bind less than a new one wait undisturbed at the bottom. -/
theorem closeAbove_append_of_lt {op : BinOp} {vs : List Waiting}
    (h : ∀ w ∈ vs, w.op.priority < op.priority) (ws : List Waiting) (rhs : Expr) :
    closeAbove op (ws ++ vs) rhs =
      ((closeAbove op ws rhs).1 ++ vs, (closeAbove op ws rhs).2) := by
  induction ws generalizing rhs with
  | nil =>
      cases vs with
      | nil => rfl
      | cons v vs =>
          have hv := h v (List.mem_cons_self ..)
          simp [closeAbove, Nat.not_le.mpr hv]
  | cons w ws ih =>
      rw [List.cons_append, closeAbove, closeAbove]
      split
      · exact ih _
      · rfl

/-- Closing takes operands from the top of the stack and leaves the rest as it is. -/
theorem closeAbove_suffix (op : BinOp) (ws : List Waiting) (rhs : Expr) :
    (closeAbove op ws rhs).1 <:+ ws := by
  induction ws generalizing rhs with
  | nil => exact List.suffix_refl _
  | cons w ws ih =>
      rw [closeAbove]
      split
      · exact (ih _).trans (List.suffix_cons _ _)
      · exact List.suffix_refl _

/-! ### One level down -/

/-- Looking at the next token twice is looking at it once. -/
theorem peek_bind_peek {α : Type} (f : Token → Parse α) :
    (peek >>= fun _ => peek >>= f) = peek >>= f := by
  funext p
  refine Attempt.bind_congr fun t q hq => ?_
  rw [Attempt.bind_apply, peek_of_lookahead (lookahead_peek hq)]

/-- A level looks at the next token first, so it makes no difference that someone has done so
before. -/
theorem peek_bind_folds (ho : ∀ p, Settles 1 operand p) (priority : Nat) (lhs : Expr) :
    (peek >>= fun _ => folds operand priority lhs) = folds operand priority lhs := by
  rw [folds_eq ho]
  exact peek_bind_peek _

/-- A level ends at a token that is no operator of its priority. -/
theorem folds_of_ne (ho : ∀ p, Settles 1 operand p) {priority : Nat} {t : Token} {q : Parser}
    (hq : peek q = (.ok t, q))
    (ht : ∀ op, BinOp.ofToken? t.kind = some op → op.priority ≠ priority) (lhs : Expr) :
    folds operand priority lhs q = (.ok lhs, q) := by
  rw [folds_eq ho, Attempt.bind_apply, hq]
  cases hop : BinOp.ofToken? t.kind with
  | none => simp [hop]
  | some op => simp [hop, ht op hop]

/-- A level goes on at an operator of its priority. -/
theorem folds_of_eq (ho : ∀ p, Settles 1 operand p) {t : Token} {q : Parser}
    (hq : peek q = (.ok t, q)) {op : BinOp} (hop : BinOp.ofToken? t.kind = some op) (lhs : Expr) :
    folds operand op.priority lhs q = (do
      let t ← advance
      let rhs ← operand
      folds operand op.priority (.binary op lhs rhs t.pos)) q := by
  rw [folds_eq ho, Attempt.bind_apply, hq]
  simp only [hop, if_pos]

/-- **One level down.**  A stack down to `lo` whose lowest operators have priority `lo` is the stack
down to `lo + 1` above them, followed by the operators of priority `lo`. -/
theorem climbs_eq_folds (ho : ∀ p, Settles 1 operand p) {lo : Nat} {tighter : Parse Expr}
    (hs : ∀ p, Settles 1 tighter p)
    (ht : ∀ K : Expr → Parse Expr, (∀ e, (peek >>= fun _ => K e) = K e) →
      tighter >>= K = operand >>= fun e => climbs operand (lo + 1) [] e >>= K)
    (waiting bottom : List Waiting) (hw : ∀ w ∈ waiting, lo < w.op.priority)
    (hb : ∀ w ∈ bottom, w.op.priority = lo) (rhs : Expr) (p : Parser) :
    climbs operand lo (waiting ++ bottom) rhs p =
      (climbs operand (lo + 1) waiting rhs >>= fun e =>
        folds tighter lo (closeAll bottom e)) p := by
  -- Every operator that is taken leaves less to read.
  induction hr : p.remaining using Nat.strongRecOn generalizing p waiting bottom rhs with
  | ind n ih =>
  subst hr
  rw [climbs_eq ho lo, climbs_eq ho (lo + 1), Attempt.bind_assoc]
  refine Attempt.bind_congr fun t q hq => ?_
  have hqq := peek_of_lookahead (lookahead_peek hq)
  cases hop : BinOp.ofToken? t.kind with
  -- No operator: both stop, and the level below takes nothing.
  | none =>
      have hstop : folds tighter lo (closeAll (waiting ++ bottom) rhs) q = _ :=
        folds_of_ne hs hqq (by simp [hop]) _
      rw [closeAll_append] at hstop ⊢
      exact hstop.symm
  | some op =>
      rcases Nat.lt_trichotomy op.priority lo with hlt | rfl | hgt
      · have hstop : folds tighter lo (closeAll (waiting ++ bottom) rhs) q = _ :=
          folds_of_ne hs hqq (fun op' h => by rw [hop] at h; cases h; omega) _
        rw [Option.filter_some_neg (by simp; omega), Option.filter_some_neg (by simp; omega)]
        rw [closeAll_append] at hstop ⊢
        exact hstop.symm
      -- An operator of the level itself closes the whole stack and waits alone.
      · rw [Option.filter_some_pos (by simp), Option.filter_some_neg (by simp)]
        have hgo := folds_of_eq hs hqq hop (closeAll bottom (closeAll waiting rhs))
        refine Eq.trans ?_ hgo.symm
        refine Attempt.bind_congr fun t' r hr => ?_
        have hclose : closeAbove op (waiting ++ bottom) rhs =
            ([], closeAll bottom (closeAll waiting rhs)) := by
          rw [← closeAll_append]
          refine closeAbove_of_le (fun w h => ?_) rhs
          rcases List.mem_append.mp h with h | h
          · exact Nat.le_of_lt (hw w h)
          · exact Nat.le_of_eq (hb w h).symm
        rw [ht _ fun e => peek_bind_folds hs _ _, hclose]
        refine Attempt.bind_congr fun e s hs' => ?_
        have hlt := remaining_lt_of_operand ho hq hop hr hs'
        exact ih _ hlt [] [_] (by simp) (by simp) e s rfl
      -- A tighter one is put on both stacks, above what waits for the level.
      · rw [Option.filter_some_pos (by simp; omega), Option.filter_some_pos (by simp; omega)]
        simp only [Attempt.bind_assoc]
        refine Attempt.bind_congr fun t' r hr => Attempt.bind_congr fun e s hs' => ?_
        have hlt := remaining_lt_of_operand ho hq hop hr hs'
        rw [closeAbove_append_of_lt (fun w h => by rw [hb w h]; exact hgt)]
        refine ih _ hlt (_ :: _) bottom (fun w h => ?_) hb e s rfl
        rcases List.mem_cons.mp h with rfl | h
        · exact hgt
        · exact hw w ((closeAbove_suffix op waiting rhs).subset h)

/-! ### All levels -/

/-- The priorities of operators go from 5 to 10. -/
theorem priority_mem (op : BinOp) : 5 ≤ op.priority ∧ op.priority ≤ 10 := by
  cases op <;> decide

theorem level_of_lt {priority : Nat} (h : priority < 11) :
    level operand priority =
      level operand (priority + 1) >>= folds (level operand (priority + 1)) priority := by
  rw [level, if_pos h]
  rfl

theorem level_eleven : level operand 11 = operand := by
  rw [level, if_neg (by decide)]

/-- Every level takes a token and comes to an end, if operands do. -/
theorem settles_level (ho : ∀ p, Settles 1 operand p) (k : Nat) (hk : k ≤ 11) :
    ∀ p, Settles 1 (level operand (11 - k)) p := by
  induction k with
  | zero => rw [level_eleven]; exact ho
  | succ k ih =>
      have hup : 11 - (k + 1) + 1 = 11 - k := by omega
      rw [level_of_lt (by omega), hup]
      intro p
      refine (ih (by omega) p).bind fun e q _ _ => ?_
      exact .bounded (settles_foldLevel (ih (by omega)) _ _ q (Nat.lt_succ_self _))

/-- Above the highest priority a stack takes no operator. -/
theorem climbs_eleven (ho : ∀ p, Settles 1 operand p) (e : Expr) :
    climbs operand 11 [] e = peek >>= fun _ => pure e := by
  rw [climbs_eq ho]
  funext p
  refine Attempt.bind_congr fun t q _ => ?_
  cases hop : BinOp.ofToken? t.kind with
  | none => rfl
  | some op =>
      have hle := (priority_mem op).2
      rw [Option.filter_some_neg (by simp; omega)]
      rfl

/-- A level is an operand and a stack that stops below it, if that is so of the next level before
whatever looks at the next token first. -/
theorem level_eq_climbs (ho : ∀ p, Settles 1 operand p) {lo : Nat} (hlo : lo < 11)
    (hs : ∀ p, Settles 1 (level operand (lo + 1)) p)
    (ht : ∀ K : Expr → Parse Expr, (∀ e, (peek >>= fun _ => K e) = K e) →
      level operand (lo + 1) >>= K = operand >>= fun e => climbs operand (lo + 1) [] e >>= K) :
    level operand lo = operand >>= climbs operand lo [] := by
  rw [level_of_lt hlo, ht _ (peek_bind_folds hs lo)]
  funext p
  refine Attempt.bind_congr fun e q _ => ?_
  exact (climbs_eq_folds ho hs ht [] [] (by simp) (by simp) e q).symm

/-- **Every level is an operand and a stack**, before whatever looks at the next token first.  The
levels are counted from the top, where the induction starts. -/
theorem level_bind (ho : ∀ p, Settles 1 operand p) (k : Nat) (hk : k ≤ 11) (K : Expr → Parse Expr)
    (hK : ∀ e, (peek >>= fun _ => K e) = K e) :
    level operand (11 - k) >>= K = operand >>= fun e => climbs operand (11 - k) [] e >>= K := by
  induction k generalizing K with
  -- The stack looks at a token where the operand alone does not; `K` looks at it anyway.
  | zero =>
      simp only [Nat.sub_zero, level_eleven, climbs_eleven ho, Attempt.bind_assoc,
        Attempt.pure_bind, hK]
  | succ k ih =>
      have hup : 11 - k = 11 - (k + 1) + 1 := by omega
      have hs := settles_level ho k (by omega)
      have ih := ih (by omega)
      rw [hup] at hs ih
      rw [level_eq_climbs ho (by omega) hs ih, Attempt.bind_assoc]

/-! ### The parser's stack -/

/-- The priorities of waiting operators rise towards the top. -/
def Rising (ws : List Waiting) : Prop := ws.Pairwise fun v w => w.op.priority < v.op.priority

/-- Closing what binds at least as tight leaves only what binds less. -/
theorem lt_of_mem_closeAbove (op : BinOp) {ws : List Waiting} (h : Rising ws) (rhs : Expr) :
    ∀ w ∈ (closeAbove op ws rhs).1, w.op.priority < op.priority := by
  induction ws generalizing rhs with
  | nil => simp [closeAbove]
  | cons v ws ih =>
      have hv := List.pairwise_cons.mp h
      rw [closeAbove]
      split
      · exact ih hv.2 _
      next hlt =>
        intro w hw
        rcases List.mem_cons.mp hw with rfl | hw
        · exact Nat.not_le.mp hlt
        · exact Nat.lt_trans (hv.1 w hw) (Nat.not_le.mp hlt)

/-- Rising priorities from 5 on are not many. -/
theorem Rising.length_le {ws : List Waiting} (h : Rising ws) {b : Nat}
    (hb : ∀ w ∈ ws, w.op.priority < b) : ws.length ≤ b - 5 := by
  induction ws generalizing b with
  | nil => exact Nat.zero_le _
  | cons v ws ih =>
      have hv := List.pairwise_cons.mp h
      have hle := ih hv.2 hv.1
      have hmem := (priority_mem v.op).1
      have hlt := hb v (List.mem_cons_self ..)
      rw [List.length_cons]
      omega

/-- A new operator is put on what binds less, so the priorities still rise. -/
theorem Rising.push {ws : List Waiting} (h : Rising ws) (op : BinOp) (span : Position)
    (rhs : Expr) :
    Rising ({ lhs := (closeAbove op ws rhs).2, op := op, span := span } ::
      (closeAbove op ws rhs).1) :=
  List.pairwise_cons.mpr
    ⟨lt_of_mem_closeAbove op h rhs, h.sublist (closeAbove_suffix op ws rhs).sublist⟩

/-- So there is always room for one more. -/
theorem Rising.length_closeAbove {ws : List Waiting} (h : Rising ws) (op : BinOp) (rhs : Expr) :
    (closeAbove op ws rhs).1.length ≠ waitingCapacity := by
  have hlen := (h.push op default rhs).length_le fun w _ => Nat.lt_succ_of_le (priority_mem w.op).2
  rw [List.length_cons] at hlen
  unfold waitingCapacity
  omega

/-- The parser's stack never fills up and stops at no operator. -/
theorem operators_eq_climb (n : Nat) {ws : List Waiting} (h : Rising ws) (rhs : Expr) :
    operators operand n ws rhs = climb operand 5 n ws rhs := by
  induction n generalizing ws rhs with
  | zero => rfl
  | succ n ih =>
      funext p
      refine Attempt.bind_congr fun t q _ => ?_
      cases hop : BinOp.ofToken? t.kind with
      | none => rfl
      | some op =>
          have hmem := priority_mem op
          rw [Option.filter_some_pos (by simp; omega)]
          refine Attempt.bind_congr fun t' r _ => ?_
          rw [if_neg (h.length_closeAbove op rhs)]
          refine Attempt.bind_congr fun e s _ => ?_
          rw [ih (h.push op t'.pos rhs)]

/-- A binary expression is the lowest level over its operands. -/
theorem binary_eq_level (ho : ∀ p, Settles 1 operand p) : binary operand = level operand 5 := by
  have hclimb : binary operand = operand >>= climbs operand 5 [] := by
    funext p
    refine Attempt.bind_congr fun e q _ => ?_
    exact congrFun (operators_eq_climb _ List.Pairwise.nil e) q
  rw [hclimb]
  exact (level_eq_climbs ho (by decide) (settles_level ho 5 (by decide))
    (level_bind ho 5 (by decide))).symm

/-- **Layers.**  From every state, an expression is read as level 5 over the operands reads it: the
same answer or error, and the same state after it. -/
theorem parseExpr_eq_level : ofReading parseExpr = level (ofReading parseUnary) 5 := by
  rw [ofReading_parseExpr]
  refine binary_eq_level fun p => ?_
  rw [parseUnary, ofReading_run]
  exact settles_unary p

end ScriptLang.Parser
