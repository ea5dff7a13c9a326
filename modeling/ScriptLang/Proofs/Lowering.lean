import ScriptLang.Proofs.Evaluation
import ScriptLang.Proofs.Memory

/-!
# Lowered code computes the value

The nodes of an expression in post-order own the cells 0, 1, 2, …: the cell of a literal is seeded,
and every operator is one instruction that fills its cell from the cells of its operands, which
stand before it.  So after the instructions of the first `k` nodes, those `k` cells hold the values
of their nodes and the cells of the operators after them are still nil (`Reached`).  One more
operator either fills its cell or stops the machine with the error of its node (`Reached.tick`),
and by induction the code stops at its end or at the first node without a value.
-/

namespace ScriptLang

/-! ### The layout of lowered code -/

namespace Expr

/-- The instruction of a node whose cell is `slot`: an operand's cell is right before it, and the
left operand's is before all nodes of the right one. -/
def instruction? (slot : Nat) : Expr → Option Instruction
  | unary op _ pos => some { op := op.opcode, a := slot, b := slot - 1, c := 0, pos := pos }
  | binary op _ rhs pos =>
    let c := slot - 1
    some { op := op.opcode, a := slot, b := c - rhs.postorder.length, c := c, pos := pos }
  | _ => none

/-- The seed of a node whose cell is `slot`. -/
def seed? (table : Intern.Table) (slot : Nat) : Expr → Option (Nat × Value)
  | literal t => (t.value? table).map fun v => (slot, v)
  | _ => none

/-- The instructions of nodes whose cells begin at `base`. -/
def nodeCode (base : Nat) (nodes : List Expr) : List Instruction :=
  (nodes.zipIdx base).filterMap fun (n, slot) => n.instruction? slot

/-- The seeds of nodes whose cells begin at `base`. -/
def nodeSeeds (table : Intern.Table) (base : Nat) (nodes : List Expr) : List (Nat × Value) :=
  (nodes.zipIdx base).filterMap fun (n, slot) => n.seed? table slot

/-- Nodes may be lowered in two parts, the second behind the cells of the first. -/
theorem nodeCode_append (base : Nat) (xs ys : List Expr) :
    nodeCode base (xs ++ ys) = nodeCode base xs ++ nodeCode (base + xs.length) ys := by
  simp [nodeCode, List.zipIdx_append]

theorem nodeSeeds_append (table : Intern.Table) (base : Nat) (xs ys : List Expr) :
    nodeSeeds table base (xs ++ ys) =
      nodeSeeds table base xs ++ nodeSeeds table (base + xs.length) ys := by
  simp [nodeSeeds, List.zipIdx_append]

theorem nodeCode_singleton (base : Nat) (n : Expr) :
    nodeCode base [n] = (n.instruction? base).toList := by
  cases h : n.instruction? base <;> simp [nodeCode, h]

theorem nodeSeeds_singleton (table : Intern.Table) (base : Nat) (n : Expr) :
    nodeSeeds table base [n] = (n.seed? table base).toList := by
  cases h : n.seed? table base <;> simp [nodeSeeds, h]

/-- Every node is an operator or a literal with a value. -/
def Resolved (table : Intern.Table) (e : Expr) : Prop :=
  ∀ n ∈ e.postorder, n.isOperator ∨ ∃ t v, n = literal t ∧ t.value? table = some v

/-- An expression whose constants have values has an operand with such constants. -/
theorem Resolved.unary {table : Intern.Table} {op : UnaryOp} {operand : Expr} {pos : Position}
    (h : (unary op operand pos).Resolved table) : operand.Resolved table :=
  fun n hn => h n (List.mem_append_left _ hn)

theorem Resolved.binary {table : Intern.Table} {op : BinOp} {lhs rhs : Expr} {pos : Position}
    (h : (binary op lhs rhs pos).Resolved table) : lhs.Resolved table ∧ rhs.Resolved table :=
  ⟨fun n hn => h n (List.mem_append_left _ (List.mem_append_left _ hn)),
    fun n hn => h n (List.mem_append_left _ (List.mem_append_right _ hn))⟩

/-- The root of a resolved expression, if it is no operator, is a literal with a value. -/
theorem Resolved.root {table : Intern.Table} {e : Expr} (h : e.Resolved table) :
    e.isOperator ∨ ∃ t v, e = literal t ∧ t.value? table = some v :=
  h e (List.mem_of_getLast? (getLast?_postorder e))

end Expr

open ScriptLang.Expr

/-- **The layout.**  Lowering gives the nodes, in post-order, the cells from the next free one on;
the result is the cell of the last of them. -/
theorem Lowering.expr?_eq {table : Intern.Table} : ∀ (e : Expr) (l : Lowering), e.Resolved table →
    expr? table e l = some (l.next + (e.postorder.length - 1),
      { code := l.code ++ nodeCode l.next e.postorder
        seeds := l.seeds ++ nodeSeeds table l.next e.postorder
        next := l.next + e.postorder.length })
  | .literal t, l, h => by
      rcases h.root with h | ⟨_, v, ⟨rfl⟩, hv⟩
      · cases h
      · simp [expr?, hv, seed, postorder, nodeCode_singleton, nodeSeeds_singleton, instruction?,
          seed?]
  | .unary op x pos, l, h => by
      have hx := List.length_pos_of_mem (List.mem_of_getLast? (getLast?_postorder x))
      simp only [expr?, expr?_eq x l h.unary, postorder, nodeCode_append, nodeSeeds_append,
        nodeCode_singleton, nodeSeeds_singleton, instruction?, seed?, emit, List.length_append,
        List.length_singleton]
      simp
      omega
  | .binary op lhs rhs pos, l, h => by
      have hl := List.length_pos_of_mem (List.mem_of_getLast? (getLast?_postorder lhs))
      have hr := List.length_pos_of_mem (List.mem_of_getLast? (getLast?_postorder rhs))
      simp only [expr?, expr?_eq lhs l h.binary.1, expr?_eq rhs _ h.binary.2, postorder,
        nodeCode_append, nodeSeeds_append, nodeCode_singleton, nodeSeeds_singleton, instruction?,
        seed?, emit, List.length_append, List.length_singleton]
      simp
      omega
  | .func .., l, h | .call _, l, h => by
      rcases h.root with h | ⟨t, v, h, -⟩ <;> cases h

/-- The lowered form of an expression, by its nodes. -/
def Expr.lowered (table : Intern.Table) (e : Expr) : Lowered :=
  { code := (nodeCode 0 e.postorder ++ [Instruction.halt]).toArray
    seeds := nodeSeeds table 0 e.postorder
    result := e.postorder.length - 1 }

/-- **Lowering succeeds** if every constant has a value, and gives the code and the seeds of the
nodes. -/
theorem Expr.lower?_eq {table : Intern.Table} {e : Expr} (he : e.Resolved table) :
    e.lower? table = some (e.lowered table) := by
  simp [lower?, Lowering.expr?_eq e _ he, Lowering.empty, lowered]

/-! ### Seeds -/

theorem Memory.seedAll_append (m : Memory) (xs ys : List (Nat × Value)) :
    m.seedAll (xs ++ ys) = (m.seedAll xs).seedAll ys := by
  simp [seedAll]

theorem Memory.seedAll_cons {table : Intern.Table} (m : Memory) (base : Nat) (n : Expr)
    (nodes : List Expr) :
    m.seedAll (nodeSeeds table base (n :: nodes)) =
      (m.seedAll (n.seed? table base).toList).seedAll (nodeSeeds table (base + 1) nodes) := by
  rw [← List.singleton_append, nodeSeeds_append, nodeSeeds_singleton, seedAll_append]
  rfl

/-- The seed of the node whose cell is `slot` writes that cell and no other. -/
theorem Memory.get_seedAll_seed? {table : Intern.Table} {slot : Nat} (h : slot < memoryCapacity)
    (m : Memory) (n : Expr) (i : Nat) :
    (m.seedAll (n.seed? table slot).toList).get i =
      if i = slot then ((n.seed? table slot).map Prod.snd).getD (m.get slot) else m.get i := by
  by_cases hi : i = slot
  · subst hi
    cases n with
    | literal t =>
        cases hv : t.value? table <;> simp [Expr.seed?, seedAll, hv, set_of_lt h]
    | _ => simp [Expr.seed?, seedAll]
  · cases n with
    | literal t =>
        cases hv : t.value? table <;> simp [Expr.seed?, seedAll, hv, set_of_lt h, hi, get_put_of_ne]
    | _ => simp [Expr.seed?, seedAll, hi]

/-- Seeding nodes writes no cell before theirs. -/
theorem Memory.get_seedAll_of_lt {table : Intern.Table} {nodes : List Expr} {base i : Nat}
    (m : Memory) (hcap : base + nodes.length ≤ memoryCapacity) (hi : i < base) :
    (m.seedAll (nodeSeeds table base nodes)).get i = m.get i := by
  induction nodes generalizing base m with
  | nil => rfl
  | cons n nodes ih =>
      rw [List.length_cons] at hcap
      rw [seedAll_cons, ih _ (by omega) (by omega), get_seedAll_seed? (by omega),
        if_neg (by omega)]

/-- Seeding nodes gives every cell of theirs its seed, if its node has one. -/
theorem Memory.get_seedAll (table : Intern.Table) {nodes : List Expr} {n : Expr} (base : Nat)
    {i : Nat} (m : Memory) (hcap : base + nodes.length ≤ memoryCapacity) (hn : nodes[i]? = some n) :
    (m.seedAll (nodeSeeds table base nodes)).get (base + i) =
      ((n.seed? table (base + i)).map Prod.snd).getD (m.get (base + i)) := by
  induction nodes generalizing base i m with
  | nil => simp at hn
  | cons x nodes ih =>
      rw [List.length_cons] at hcap
      rw [seedAll_cons]
      cases i with
      | zero =>
          obtain rfl : x = n := by simpa using hn
          rw [get_seedAll_of_lt _ (by omega) (by omega), get_seedAll_seed? (by omega), Nat.add_zero,
            if_pos rfl]
      | succ i =>
          rw [← Nat.add_assoc, Nat.add_right_comm, ih _ _ (by omega) (by simpa using hn),
            get_seedAll_seed? (by omega), if_neg (by omega)]

/-! ### The steps of an operator -/

namespace Machine

theorem write_of_lt {i : Instruction} (h : i.a < memoryCapacity) (v : Value) (m : Machine) :
    write i v m = (.ok (), { m with memory := m.memory.put i.a v }) := by
  simp [write, onMemory, Memory.set_of_lt h]

/-- What an instruction that computes cell `a` does with the value it computes. -/
def fill (a : Nat) (m : Machine) : Except RuntimeError Value → Except RuntimeError Flow × Machine
  | .ok v => (.ok .next, { m with memory := m.memory.put a v })
  | .error err => (.error err, m)

/-- A unary operator's instruction fills its cell as the operator says. -/
theorem step_unary (op : UnaryOp) {a b c : Nat} {pos : Position} (ha : a < memoryCapacity)
    (m : Machine) :
    step { op := op.opcode, a := a, b := b, c := c, pos := pos } m =
      m.fill a (op.apply pos (m.memory.get b)) := by
  cases op with
  | not =>
      simp [step, UnaryOp.opcode, compute, Attempt.bind_apply, read, write_of_lt, ha, fill,
        UnaryOp.apply]
  | neg =>
      cases hn : (m.memory.get b).number? <;>
        simp [step, UnaryOp.opcode, compute, Attempt.bind_apply, readNumber, read, write_of_lt, ha,
          fill, UnaryOp.apply, hn]

/-- A binary operator's instruction fills its cell as the operator says. -/
theorem step_binary (op : BinOp) {a b c : Nat} {pos : Position} (ha : a < memoryCapacity)
    (m : Machine) :
    step { op := op.opcode, a := a, b := b, c := c, pos := pos } m =
      m.fill a (op.apply pos (m.memory.get b) (m.memory.get c)) := by
  cases op with
  | eq | neq | and | or =>
      simp [step, BinOp.opcode, compute, Attempt.bind_apply, read, write_of_lt, ha, fill,
        BinOp.apply]
  | mul | add | sub | ge | gt | le | lt =>
      cases hb : (m.memory.get b).number? <;> cases hc : (m.memory.get c).number? <;>
        simp [step, BinOp.opcode, compute, Attempt.bind_apply, readNumber, read, arithmetic,
          write_of_lt, ha, fill, BinOp.apply, Value.calculate, hb, hc]
  -- Division is the one operator that fails on two numbers.
  | div =>
      cases hb : (m.memory.get b).number? <;> cases hc : (m.memory.get c).number? <;>
        simp only [step, BinOp.opcode, compute, Attempt.bind_apply, readNumber, read, arithmetic,
          BinOp.apply, Value.calculate, hb, hc, Attempt.pure_apply, Attempt.fail_apply, fill]
      next y =>
        by_cases hz : Number.isZero y <;> simp [hz, write_of_lt, ha]

/-! ### The run -/

/-- The machine is about to execute the code of the nodes from the `k`-th on: the cells before it
and those of all literals hold the values of their nodes, and the cells of the other operators are
nil. -/
structure Reached (table : Intern.Table) (id : Nat) (nodes : List Expr) (k : Nat) (m : Machine) :
    Prop where
  code : m.functions.get? id = some (nodeCode 0 nodes ++ [Instruction.halt]).toArray
  calls : m.calls = .initial
  pc : m.pc = { function := id, address := (nodeCode 0 (nodes.take k)).length }
  holds : ∀ i n, nodes[i]? = some n → i < k ∨ n.isOperator = false →
    n.eval table = .ok (m.memory.get i)
  blank : ∀ i n, nodes[i]? = some n → k ≤ i → n.isOperator → m.memory.get i = .nil

variable {table : Intern.Table} {id k : Nat} {nodes : List Expr} {n : Expr} {m : Machine}

/-- The code of one node more ends with the instruction of the last. -/
theorem nodeCode_take_succ (hn : nodes[k]? = some n) :
    nodeCode 0 (nodes.take (k + 1)) = nodeCode 0 (nodes.take k) ++ (n.instruction? k).toList := by
  have hk := (List.getElem?_eq_some_iff.mp hn).1
  rw [List.take_add_one, hn, nodeCode_append, Option.toList_some, nodeCode_singleton,
    List.length_take, Nat.min_eq_left (Nat.le_of_lt hk), Nat.zero_add]

/-- A literal has no code, so the machine is already past it. -/
theorem Reached.literal (h : Reached table id nodes k m) (hn : nodes[k]? = some n)
    (hop : n.isOperator = false) : Reached table id nodes (k + 1) m := by
  have hnone : n.instruction? k = none := by cases n <;> first | rfl | cases hop
  refine ⟨h.code, h.calls, ?_, fun i x hx hi => h.holds i x hx ?_, fun i x hx hi hopx => ?_⟩
  · rw [nodeCode_take_succ hn, hnone, Option.toList_none, List.append_nil]
    exact h.pc
  · rcases hi with hi | hi
    · rcases Nat.lt_succ_iff_lt_or_eq.mp hi with hi | rfl
      · exact .inl hi
      · exact .inr (by rw [hn] at hx; cases hx; exact hop)
    · exact .inr hi
  · exact h.blank i x hx (Nat.le_of_succ_le hi) hopx

/-- The machine fetches the instruction of the next node. -/
theorem Reached.fetch (h : Reached table id nodes k m) (hn : nodes[k]? = some n)
    {i : Instruction} (hi : n.instruction? k = some i) : Machine.fetch m = (.ok i, m) := by
  have hsplit : nodeCode 0 nodes = nodeCode 0 (nodes.take k) ++
      i :: nodeCode (nodes.take (k + 1)).length (nodes.drop (k + 1)) := by
    conv => lhs; rw [← List.take_append_drop (k + 1) nodes, nodeCode_append,
      nodeCode_take_succ hn, hi]
    simp
  simp [Machine.fetch, h.pc, h.code, hsplit]

/-- The instruction of an operator computes the value of its node, since the cells of its operands
hold theirs. -/
theorem Reached.step {e : Expr} (h : Reached table id e.postorder k m)
    (hn : e.postorder[k]? = some n) (hop : n.isOperator) (hk : k < memoryCapacity) :
    ∃ i, n.instruction? k = some i ∧ Machine.step i m = m.fill k (n.eval table) := by
  cases n with
  | literal t => cases hop
  | func ps b pos => cases hop
  | call c => cases hop
  | unary op x pos =>
      obtain ⟨hlt, hx⟩ := operand_of_postorder hn
      refine ⟨_, rfl, ?_⟩
      rw [step_unary op hk, eval, h.holds _ x hx (.inl hlt)]
      rfl
  | binary op l r pos =>
      obtain ⟨⟨hltl, hl⟩, hltr, hr⟩ := operands_of_postorder hn
      refine ⟨_, rfl, ?_⟩
      rw [step_binary op hk, eval, h.holds _ l hl (.inl hltl), h.holds _ r hr (.inl hltr)]
      rfl

/-- Filling the cell of an operator with the value of its node takes the machine to the next. -/
theorem Reached.fill {v : Value} (h : Reached table id nodes k m) (hn : nodes[k]? = some n)
    (hop : n.isOperator) (hv : n.eval table = .ok v) :
    Reached table id nodes (k + 1)
      { m with memory := m.memory.put k v, pc := { m.pc with address := m.pc.address + 1 } } := by
  have hsome : (n.instruction? k).toList.length = 1 := by cases n <;> first | rfl | cases hop
  refine ⟨h.code, h.calls, ?_, fun i x hx hi => ?_, fun i x hx hi hopx => ?_⟩
  · rw [nodeCode_take_succ hn, List.length_append, hsome, h.pc]
  · by_cases hik : i = k
    · subst hik
      rw [hn] at hx
      cases hx
      rw [Memory.get_put_self]
      exact hv
    · rw [Memory.get_put_of_ne hik]
      exact h.holds i x hx (hi.imp_left fun hlt => by omega)
  · rw [Memory.get_put_of_ne (by omega)]
    exact h.blank i x hx (by omega) hopx

/-- **One operator.**  If its node has a value the machine goes on to the next node, and otherwise
it stops with the error of the node and is left as it was. -/
theorem Reached.tick {e : Expr} (h : Reached table id e.postorder k m)
    (hn : e.postorder[k]? = some n) (hop : n.isOperator) (hk : k < memoryCapacity) :
    (∀ v, n.eval table = .ok v →
      ∃ m', Machine.tick m = (.ok .next, m') ∧ Reached table id e.postorder (k + 1) m') ∧
    ∀ err, n.eval table = .error err → Machine.tick m = (.error err, m) := by
  obtain ⟨i, hi, hstep⟩ := h.step hn hop hk
  constructor
  · intro v hv
    refine ⟨_, ?_, h.fill hn hop hv⟩
    simp [Machine.tick, Attempt.bind_apply, h.fetch hn hi, hstep, hv, Machine.fill, advance]
  · intro err herr
    simp [Machine.tick, Attempt.bind_apply, h.fetch hn hi, hstep, herr, Machine.fill]

/-- **The run.**  The machine gets through the code of the first `k` nodes if they have values. -/
theorem Reached.run {e : Expr} (h : Reached table id e.postorder 0 m)
    (hcap : e.postorder.length ≤ memoryCapacity) (k : Nat) (hk : k ≤ e.postorder.length)
    (hv : ∀ x ∈ e.postorder.take k, ∃ v, x.eval table = .ok v) :
    ∃ m', Reached table id e.postorder k m' ∧
      ∀ fuel,
        interpret (fuel + (nodeCode 0 (e.postorder.take k)).length) m = interpret fuel m' := by
  -- On nodes and not on instructions, as a literal has a cell but no code.
  induction k with
  | zero => exact ⟨m, h, fun fuel => by simp [nodeCode]⟩
  | succ k ih =>
      have hlt : k < e.postorder.length := hk
      obtain ⟨n, hn⟩ : ∃ n, e.postorder[k]? = some n := ⟨_, List.getElem?_eq_getElem hlt⟩
      rw [List.take_add_one, hn] at hv
      obtain ⟨m', hm', hrun⟩ := ih (Nat.le_of_lt hlt) fun x hx => hv x (List.mem_append_left _ hx)
      by_cases hop : n.isOperator
      · obtain ⟨v, hnv⟩ := hv n (by simp)
        obtain ⟨m'', ht, hm''⟩ := (hm'.tick hn hop (by omega)).1 v hnv
        obtain ⟨i, hi, -⟩ := hm'.step hn hop (by omega)
        refine ⟨m'', hm'', fun fuel => ?_⟩
        rw [nodeCode_take_succ hn, hi, List.length_append, Option.toList_some,
          List.length_singleton, ← Nat.add_assoc, Nat.add_right_comm, hrun (fuel + 1), interpret,
          ht]
      · have hop' : n.isOperator = false := by simpa using hop
        refine ⟨m', hm'.literal hn hop', fun fuel => ?_⟩
        have hnone : n.instruction? k = none := by cases n <;> first | rfl | cases hop'
        rw [nodeCode_take_succ hn, hnone, Option.toList_none, List.append_nil, hrun]

/-- The machine at the start of lowered code: the seeds are written and nothing else. -/
theorem reached_enter {e : Expr} (he : e.Resolved table)
    (hcap : e.postorder.length ≤ memoryCapacity) :
    Reached table 0 e.postorder 0 (enter 0 (e.lowered table).load.2) := by
  have hget : ∀ i n, e.postorder[i]? = some n →
      (Memory.empty.seedAll (nodeSeeds table 0 e.postorder)).get i =
        ((n.seed? table i).map Prod.snd).getD .nil := fun i n hn => by
    have h := Memory.get_seedAll table 0 Memory.empty (by rwa [Nat.zero_add]) hn
    rwa [Nat.zero_add, Memory.get_empty] at h
  refine ⟨rfl, rfl, rfl, fun i n hn hi => ?_, fun i n hn _ hop => ?_⟩
  · have hi : n.isOperator = false := hi.resolve_left (Nat.not_lt_zero i)
    rcases he n (List.mem_of_getElem? hn) with hop | ⟨t, v, rfl, hv⟩
    · rw [hi] at hop
      cases hop
    · refine Eq.trans ?_ (congrArg Except.ok (hget i _ hn).symm)
      simp [eval, seed?, hv]
  · refine (hget i n hn).trans ?_
    cases n <;> first | rfl | cases hop

/-- Fuel for every instruction takes the machine to the code of the `k`-th node, if the nodes before
it have values, and leaves fuel for one tick more. -/
theorem run_lowered_to {e : Expr} (he : e.Resolved table)
    (hcap : e.postorder.length ≤ memoryCapacity) (k : Nat) (hk : k ≤ e.postorder.length)
    (hv : ∀ x ∈ e.postorder.take k, ∃ v, x.eval table = .ok v) :
    ∃ m', Reached table 0 e.postorder k m' ∧ ∀ fuel, (e.lowered table).code.size ≤ fuel →
      ∃ rest, Machine.run fuel 0 (e.lowered table).load.2 = interpret (rest + 1) m' := by
  obtain ⟨m', hm', hrun⟩ := (reached_enter he hcap).run hcap k hk hv
  refine ⟨m', hm', fun fuel hfuel => ?_⟩
  have hle : (nodeCode 0 (e.postorder.take k)).length + 1 ≤ (e.lowered table).code.size := by
    have happ := nodeCode_append 0 (e.postorder.take k) (e.postorder.drop k)
    rw [List.take_append_drop] at happ
    simp [Expr.lowered, happ]
  obtain ⟨rest, rfl⟩ := Nat.exists_eq_add_of_le (Nat.le_trans hle hfuel)
  refine ⟨rest, ?_⟩
  rw [Machine.run, ← hrun (rest + 1)]
  congr 1
  omega

/-- The machine finishes where the code of an expression with a value ends. -/
theorem run_lowered_of_eval {e : Expr} {v : Value} (he : e.Resolved table)
    (hcap : e.postorder.length ≤ memoryCapacity) (hv : e.eval table = .ok v) :
    ∃ m', Reached table 0 e.postorder e.postorder.length m' ∧
      ∀ fuel, (e.lowered table).code.size ≤ fuel →
        Machine.run fuel 0 (e.lowered table).load.2 = (.finished, m') := by
  obtain ⟨m', hm', hrun⟩ := run_lowered_to he hcap _ (Nat.le_refl _) fun x hx =>
    eval_of_mem_postorder e v hv x (List.mem_of_mem_take hx)
  have hpc := hm'.pc
  rw [List.take_length] at hpc
  have htick : Machine.tick m' = (.ok .halt, m') := by
    simp [Machine.tick, Attempt.bind_apply, Machine.fetch, hpc, hm'.code, Instruction.halt,
      Machine.step]
  refine ⟨m', hm', fun fuel hfuel => ?_⟩
  obtain ⟨rest, hrest⟩ := hrun fuel hfuel
  rw [hrest, interpret, htick]

/-- The machine fails at the first node without a value, with its error. -/
theorem run_lowered_of_error {e : Expr} {err : RuntimeError} {before after : List Expr}
    (he : e.Resolved table) (hcap : e.postorder.length ≤ memoryCapacity)
    (hsplit : e.postorder = before ++ n :: after)
    (hbefore : ∀ x ∈ before, ∃ w, x.eval table = .ok w) (hn : n.eval table = .error err) :
    ∃ m', Reached table 0 e.postorder before.length m' ∧
      ∀ fuel, (e.lowered table).code.size ≤ fuel →
        Machine.run fuel 0 (e.lowered table).load.2 = (.failed err, m') := by
  have hlen : before.length < e.postorder.length := by simp [hsplit]
  have hget : e.postorder[before.length]? = some n := by simp [hsplit]
  have htake : e.postorder.take before.length = before := by simp [hsplit]
  obtain ⟨m', hm', hrun⟩ := run_lowered_to he hcap _ (Nat.le_of_lt hlen) (by rwa [htake])
  -- A literal never fails.
  have hop : n.isOperator := by
    rcases he n (List.mem_of_getElem? hget) with hop | ⟨t, v, rfl, -⟩
    · exact hop
    · cases hn
  have htick := (hm'.tick hget hop (by omega)).2 err hn
  refine ⟨m', hm', fun fuel hfuel => ?_⟩
  obtain ⟨rest, hrest⟩ := hrun fuel hfuel
  rw [hrest, interpret, htick]

end Machine

end ScriptLang
