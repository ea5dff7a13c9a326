import Mathlib.Algebra.Group.Nat.Defs
import ScriptLang.Proofs.Machine.Run
import ScriptLang.Proofs.Memory

/-!
# Where values come from

The machine forges no strings and no functions: an instruction moves the values there are, or makes
a boolean or a number.  So whatever code runs, every value in memory or on an operand stack was
there at the start or is a boolean or a number that was made (`Machine.Origin`), and if the bits of
all values were those of a value of their kind (`Value.canonical`), they still are.

Loose equality reads the bits of both values as doubles, whatever their kind.  Small bits are only
equal as doubles if they are the same, so on canonical values it is equality.

* `looseEq_eq_decide`: loose equality of canonical values that are no numbers.
* `hands_step`: a property of all values that holds of what instructions make is kept by a step.
* `origin_of_reaches`: so is the origin of all values by any code.
* **Canonical values** (`canonical_of_reaches`).  What follows for the machine and for what its
  equality instructions decide.
-/

namespace ScriptLang

/-! ### Canonical values -/

namespace Value

/-- Whether the bits are those of a value of its kind: 0 for nil, 0 or 1 for a boolean, and 32 bits
for a handle. -/
def canonical (v : Value) : Bool :=
  match v.kind with
  | .nil => v.payload == 0
  | .bool => v.payload == 0 || v.payload == 1
  | .number => true
  | .string | .function => v.payload.toNat < 2 ^ 32

variable {v w : Value}

theorem canonical_bool (b : Bool) : (bool b).canonical := by cases b <;> decide

theorem canonical_number (bits : UInt64) : (number bits).canonical := rfl

/-- Canonical bits of all but numbers fit a handle. -/
theorem payload_lt_of_canonical (h : v.canonical) (hkind : v.kind ≠ .number) :
    v.payload.toNat < 2 ^ 32 := by
  unfold canonical at h
  cases hk : v.kind with
  | number => exact absurd hk hkind
  | string | function => simpa [hk] using h
  | nil =>
      have hzero : v.payload = 0 := by simpa [hk] using h
      rw [hzero]
      decide
  | bool =>
      have hbit : v.payload = 0 ∨ v.payload = 1 := by simpa [hk] using h
      rcases hbit with hbit | hbit <;> rw [hbit] <;> decide

/-- Of the two zeros, only one is small. -/
theorem eq_zero_of_isZero {x : UInt64} (hx : x.toNat < 2 ^ 32) (h : Number.isZero x) : x = 0 := by
  rw [Number.isZero, Bool.or_eq_true, beq_iff_eq, beq_iff_eq] at h
  rcases h with h | rfl
  · exact h
  · exact absurd hx (by decide)

/-- Small bits that are equal as numbers are the same. -/
theorem eq_of_equal {x y : UInt64} (hx : x.toNat < 2 ^ 32) (hy : y.toNat < 2 ^ 32)
    (h : Number.equal x y) : x = y := by
  simp only [Number.equal, Bool.and_eq_true, Bool.or_eq_true, beq_iff_eq] at h
  rcases h.2 with heq | ⟨hzx, hzy⟩
  · exact heq
  · rw [eq_zero_of_isZero hx hzx, eq_zero_of_isZero hy hzy]

/-- **Loose equality is equality** on canonical values that are no numbers. -/
theorem looseEq_eq_decide (hv : v.canonical) (hw : w.canonical) (hkv : v.kind ≠ .number)
    (hkw : w.kind ≠ .number) : v.looseEq w = decide (v = w) := by
  rw [Bool.eq_iff_iff, decide_eq_true_iff]
  constructor
  · intro h
    simp only [looseEq, Bool.and_eq_true, Bool.or_eq_true, beq_iff_eq] at h
    have hpayload : v.payload = w.payload :=
      h.2.elim id (eq_of_equal (payload_lt_of_canonical hv hkv) (payload_lt_of_canonical hw hkw))
    cases v
    cases w
    simp_all
  · rintro rfl
    simp [looseEq]

/-- Every number counts as true, zero and what is no number too. -/
theorem truthy_of_number (hkind : v.kind = .number) : v.truthy := by
  simp [truthy, falsey, hkind]

/-- What counts as equal counts the same as a condition. -/
theorem truthy_eq_of_looseEq (hv : v.canonical) (hw : w.canonical) (h : v.looseEq w) :
    v.truthy = w.truthy := by
  have hkind : v.kind = w.kind := by
    simp only [looseEq, Bool.and_eq_true, beq_iff_eq] at h
    exact h.1
  by_cases hk : v.kind = .number
  · rw [truthy_of_number hk, truthy_of_number (hkind ▸ hk)]
  · rw [looseEq_eq_decide hv hw hk (hkind ▸ hk), decide_eq_true_iff] at h
    rw [h]

end Value

namespace Machine

/-! ### The values of a machine -/

/-- The values of the machine: those of its cells and those on the stacks of all frames. -/
def Contains (m : Machine) (v : Value) : Prop :=
  (∃ cell, m.memory.get cell = v) ∨ ∃ frame ∈ m.calls.frames, v ∈ frame.stack

/-- Every value of the machine has a property. -/
structure Holds (P : Value → Prop) (m : Machine) : Prop where
  cells : ∀ cell, P (m.memory.get cell)
  current : ∀ v ∈ m.calls.current.stack, P v
  callers : ∀ frame ∈ m.calls.callers, ∀ v ∈ frame.stack, P v

variable {P : Value → Prop} {m s : Machine} {i : Instruction} {v w : Value}

theorem holds_iff : Holds P m ↔ ∀ v, m.Contains v → P v := by
  constructor
  · rintro h v (⟨cell, rfl⟩ | ⟨frame, hframe, hv⟩)
    · exact h.cells cell
    · rw [CallStack.frames, List.mem_reverse, List.mem_cons] at hframe
      rcases hframe with rfl | hframe
      · exact h.current v hv
      · exact h.callers frame hframe v hv
  · intro h
    have hstack : ∀ frame ∈ m.calls.current :: m.calls.callers, ∀ v ∈ frame.stack, P v :=
      fun frame hframe v hv => h v (.inr ⟨frame, List.mem_reverse.mpr hframe, hv⟩)
    exact ⟨fun cell => h _ (.inl ⟨cell, rfl⟩), hstack _ List.mem_cons_self,
      fun frame hframe => hstack frame (List.mem_cons_of_mem _ hframe)⟩

/-- A machine contains what it contains, the strongest invariant that it has. -/
theorem holds_contains (m : Machine) : Holds m.Contains m := holds_iff.mpr fun _ h => h

theorem Holds.imp {Q : Value → Prop} (h : Holds P m) (himp : ∀ v, P v → Q v) : Holds Q m :=
  ⟨fun cell => himp _ (h.cells cell), fun v hv => himp v (h.current v hv),
    fun frame hframe v hv => himp v (h.callers frame hframe v hv)⟩

/-- A value that is put into memory is the only new one. -/
theorem Holds.put (h : Holds P m) (hv : P v) (cell : Nat) :
    Holds P { m with memory := m.memory.put cell v } := by
  refine ⟨fun other => ?_, h.current, h.callers⟩
  rw [Memory.get_put]
  split
  · exact hv
  · exact h.cells other

theorem Holds.withStack {stack : List Value} (h : Holds P m) (hstack : ∀ v ∈ stack, P v) :
    Holds P (m.withStack stack) := ⟨h.cells, hstack, h.callers⟩

/-- A call moves its arguments to the new frame and makes no value. -/
theorem Holds.called {args rest : List Value} (h : Holds P m)
    (hs : m.calls.current.stack = args ++ rest) (callee : Nat) :
    Holds P (m.called callee args rest) := by
  have hcurrent := h.current
  rw [hs] at hcurrent
  refine ⟨h.cells, fun v hv => hcurrent v (List.mem_append_left _ hv), fun frame hframe => ?_⟩
  rcases List.mem_cons.mp hframe with rfl | hframe
  · exact fun v hv => hcurrent v (List.mem_append_right _ hv)
  · exact h.callers frame hframe

/-- A return moves its results to the caller and makes no value. -/
theorem Holds.returned {results rest : List Value} {caller : Frame} {callers : List Frame}
    (h : Holds P m) (hc : m.calls.callers = caller :: callers)
    (hs : m.calls.current.stack = results ++ rest) :
    Holds P (m.returned results caller callers) := by
  have hcurrent := h.current
  have hcallers := h.callers
  rw [hs] at hcurrent
  rw [hc] at hcallers
  refine ⟨h.cells, fun v hv => ?_, fun frame hf => hcallers frame (List.mem_cons_of_mem _ hf)⟩
  rcases List.mem_append.mp hv with hv | hv
  · exact hcurrent v (List.mem_append_left _ hv)
  · exact hcallers caller List.mem_cons_self v hv

/-! ### What instructions keep -/

/-- `x` keeps the property of all values, and what it answers is in `Q`. -/
def Hands {α : Type} (P : Value → Prop) (Q : α → Prop) (x : Exec α) : Prop :=
  ∀ m, Holds P m → Holds P (x m).2 ∧ ∀ a, (x m).1 = .ok a → Q a

section Hands

variable {α β : Type} {Q : α → Prop} {R : β → Prop} {x : Exec α} {f : α → Exec β}

theorem hands_pure {a : α} (ha : Q a) : Hands P Q (pure a : Exec α) :=
  fun _ h => ⟨h, fun _ heq => Except.ok.inj heq ▸ ha⟩

theorem hands_fail (e : RuntimeError) : Hands P Q (Attempt.fail e : Exec α) :=
  fun _ h => ⟨h, nofun⟩

/-- The second computation may use what holds of the answer of the first. -/
theorem Hands.bind (hx : Hands P Q x) (hf : ∀ a, Q a → Hands P R (f a)) : Hands P R (x >>= f) := by
  intro m hm
  obtain ⟨hm', ha⟩ := hx m hm
  rw [Attempt.bind_apply]
  rcases hxm : x m with ⟨e | a, m'⟩
  · rw [hxm] at hm'
    exact ⟨hm', nofun⟩
  · rw [hxm] at hm' ha
    exact hf a (ha a rfl) m' hm'

/-- A cell of memory hands on a value of which the property holds, also if it was never written. -/
theorem hands_read (cell : Nat) : Hands P P (read cell) :=
  fun _ h => ⟨h, fun _ heq => Except.ok.inj heq ▸ h.cells cell⟩

theorem hands_readLocal (index : Nat) : Hands P P (readLocal index) := hands_read _

/-- What changes memory puts at most one value there. -/
theorem hands_onMemory {y : Attempt Memory MemoryError Unit} {cell : Nat} {e : MemoryError}
    (hy : ∀ memory, y memory =
      if cell < memoryCapacity then (.ok (), memory.put cell v) else (.error e, memory))
    (hv : P v) : Hands P (fun _ => True) (onMemory i y) := by
  intro m hm
  rw [onMemory_eq hy]
  by_cases hc : cell < memoryCapacity
  · rw [if_pos hc]
    exact ⟨hm.put hv cell, fun _ _ => trivial⟩
  · rw [if_neg hc]
    exact ⟨hm, nofun⟩

theorem hands_write (hv : P v) : Hands P (fun _ => True) (write i v) :=
  hands_onMemory (fun _ => rfl) hv

theorem hands_writeLocal (hv : P v) : Hands P (fun _ => True) (writeLocal i v) :=
  hands_onMemory (fun _ => rfl) hv

theorem hands_push (hv : P v) : Hands P (fun _ => True) (push v) :=
  fun _ h => ⟨h.withStack (List.forall_mem_cons.mpr ⟨hv, h.current⟩), fun _ _ => trivial⟩

/-- The top of the stack is a value of the machine. -/
theorem hands_peek : Hands P P (peek i) := by
  intro m hm
  have hcurrent := hm.current
  unfold peek Frame.top?
  cases hs : m.calls.current.stack with
  | nil => exact ⟨hm, nofun⟩
  | cons v rest =>
      rw [hs] at hcurrent
      exact ⟨hm, fun _ heq => Except.ok.inj heq ▸ hcurrent v List.mem_cons_self⟩

/-- A value that is taken off the stack and put into memory was in the machine before. -/
theorem hands_pop : Hands P P (pop i) := by
  intro m hm
  have hcurrent := hm.current
  unfold pop Frame.pop?
  cases hs : m.calls.current.stack with
  | nil => exact ⟨hm, nofun⟩
  | cons v rest =>
      rw [hs] at hcurrent
      exact ⟨hm.withStack fun w hw => hcurrent w (List.mem_cons_of_mem v hw),
        fun _ heq => Except.ok.inj heq ▸ hcurrent v List.mem_cons_self⟩

/-- A number is read as bits, of which nothing has to hold: only values are in the machine. -/
theorem hands_readNumber (cell : Nat) : Hands P (fun _ => True) (readNumber i cell) := by
  refine (hands_read cell).bind fun v _ => ?_
  cases v.number? with
  | none => exact hands_fail _
  | some x => exact hands_pure trivial

/-- Where control goes has no bearing on the values. -/
theorem hands_control (hop : i.op = .call ∨ i.op = .leav ∨ i.op.isJump) :
    Hands P (fun _ => True) (step i) := by
  intro m hm
  refine ⟨?_, fun _ _ => trivial⟩
  have heffect := effect_step i m
  generalize step i m = result at heffect
  cases heffect with
  | halt | exit | jump | pass | refused | missing | unwritable => exact ⟨hm.1, hm.2, hm.3⟩
  | call _ _ hs => exact hm.called hs i.a
  | leave _ hc hs => exact hm.returned hc hs
  | lost hop' hs => simp [hop', Opcode.isJump] at hop
  | pop hop' => simp [hop', Opcode.isJump] at hop
  | push hop' => rcases hop' with hop' | hop' <;> simp [hop', Opcode.isJump] at hop
  | write _ hd =>
      unfold Instruction.destination? at hd
      cases hop' : i.op <;> simp [hop', Opcode.isJump] at hop hd

end Hands

/-- The property holds of the values that instructions make. -/
structure Made (P : Value → Prop) : Prop where
  bool : ∀ b, P (.bool b)
  number : ∀ x, P (.number x)

/-- **Arithmetic makes values**: numbers, and truth values by comparing them. -/
theorem hands_arithmetic (hP : Made P) (x y : UInt64) : Hands P P (arithmetic i x y) := by
  unfold arithmetic
  cases i.op with
  | ge | gt | le | lt => exact hands_pure (hP.bool _)
  | add | sub | mul => exact hands_pure (hP.number _)
  | _ =>
      by_cases hz : Number.isZero y
      · rw [if_pos hz]
        exact hands_fail _
      · rw [if_neg hz]
        exact hands_pure (hP.number _)

/-- What an instruction computes is made, or was there. -/
theorem hands_compute (hP : Made P) (i : Instruction) : Hands P (fun _ => True) (compute i) := by
  unfold compute
  cases i.op with
  | store => exact (hands_read _).bind fun v hv => hands_writeLocal hv
  | load => exact (hands_readLocal _).bind fun v hv => hands_write hv
  | mov => exact (hands_read _).bind fun v hv => hands_write hv
  | push => exact (hands_read _).bind fun v hv => hands_push hv
  | pop => exact hands_pop.bind fun v hv => hands_write hv
  | peek => exact hands_peek.bind fun v hv => hands_write hv
  | dup => exact hands_peek.bind fun v hv => hands_push hv
  | not => exact (hands_read _).bind fun v _ => hands_write (hP.bool _)
  | eq | neq | and | or =>
      exact (hands_read _).bind fun v _ => (hands_read _).bind fun w _ => hands_write (hP.bool _)
  | inv => exact (hands_readNumber _).bind fun x _ => hands_write (hP.number _)
  | ge | gt | le | lt | add | sub | mul | div =>
      exact (hands_readNumber _).bind fun x _ => (hands_readNumber _).bind fun y _ =>
        (hands_arithmetic hP x y).bind fun v hv => hands_write hv
  | halt | call | leav | jmp | jmpt | jmpf => exact hands_pure trivial

/-- **One step** keeps every property that holds of what instructions make. -/
theorem hands_step (hP : Made P) (i : Instruction) : Hands P (fun _ => True) (step i) := by
  have hcompute : Hands P (fun _ => True) (compute i >>= fun _ => pure Flow.next) :=
    (hands_compute hP i).bind fun _ _ => hands_pure trivial
  cases hop : i.op with
  | call => exact hands_control (.inl hop)
  | leav => exact hands_control (.inr (.inl hop))
  | jmp | jmpt | jmpf => exact hands_control (.inr (.inr (by rw [hop]; rfl)))
  | halt =>
      rw [step, hop]
      exact hands_pure trivial
  | _ =>
      rw [step, hop]
      exact hcompute

/-! ### All code -/

/-- What can become of a machine: any instruction is executed on it, control is put anywhere and the
functions are exchanged, or a function is entered afresh. -/
inductive Reaches (m : Machine) : Machine → Prop where
  | refl : Reaches m m
  | step {s : Machine} (h : Reaches m s) (i : Instruction) : Reaches m (step i s).2
  | place {s : Machine} (h : Reaches m s) (pc : CodePoint) (functions : FunctionTable) :
      Reaches m { s with pc := pc, functions := functions }
  | enter {s : Machine} (h : Reaches m s) (f : Nat) : Reaches m (s.enter f)

/-- A tick executes an instruction and puts control behind it, where the instruction did not. -/
theorem Reaches.tick (h : Reaches m s) : Reaches m (tick s).2 := by
  cases hi : s.functions.instruction? s.pc with
  | none =>
      obtain ⟨e, -, htick⟩ := tick_of_none hi
      rw [htick]
      exact h
  | some i =>
      rw [tick_of_instruction hi]
      have hstep := h.step i
      generalize Machine.step i s = result at hstep ⊢
      rcases result with ⟨_ | flow, s'⟩
      · exact hstep
      · cases flow with
        | next => exact hstep.place _ s'.functions
        | jump | halt => exact hstep

theorem Reaches.after (h : Reaches m s) (n : Nat) : Reaches m (s.after n) := by
  induction n with
  | zero => exact h
  | succ n ih =>
      rcases after_succ n s with heq | heq
      · rw [heq]
        exact ih
      · rw [heq]
        exact ih.tick

/-- A value that was in the machine `m`, or one that instructions make. -/
def Origin (m : Machine) (v : Value) : Prop :=
  m.Contains v ∨ (∃ b, v = .bool b) ∨ ∃ x, v = .number x

theorem made_origin (m : Machine) : Made m.Origin :=
  ⟨fun b => .inr (.inl ⟨b, rfl⟩), fun x => .inr (.inr ⟨x, rfl⟩)⟩

/-- **Any code** keeps the origin of all values. -/
theorem origin_of_reaches (h : Reaches m s) : Holds m.Origin s := by
  induction h with
  | refl => exact (holds_contains m).imp fun _ => .inl
  | step _ i ih => exact (hands_step (made_origin m) i _ ih).1
  | place _ _ _ ih => exact ⟨ih.cells, ih.current, ih.callers⟩
  | enter _ _ ih => exact ⟨ih.cells, nofun, nofun⟩

/-- Of canonical values come canonical values. -/
theorem canonical_of_origin (hm : ∀ v, m.Contains v → v.canonical) (h : m.Origin v) :
    v.canonical := by
  rcases h with h | ⟨b, rfl⟩ | ⟨x, rfl⟩
  · exact hm v h
  · exact Value.canonical_bool b
  · exact Value.canonical_number x

/-- Strings and functions are never made, so they come from the machine. -/
theorem contains_of_origin (h : m.Origin v) (hkind : v.kind = .string ∨ v.kind = .function) :
    m.Contains v := by
  rcases h with h | ⟨b, rfl⟩ | ⟨x, rfl⟩
  · exact h
  · rcases hkind with hkind | hkind <;> cases hkind
  · rcases hkind with hkind | hkind <;> cases hkind

/-- The machine with the boolean `b` in the cell that operand A names. -/
def decided (i : Instruction) (b : Bool) (s : Machine) : Machine :=
  { s with memory := s.memory.put i.a (.bool b) }

/-- Writing a truth value is the decision of the machine, which goes on with the next
instruction. -/
theorem write_bool (hc : i.a < memoryCapacity) (b : Bool) (s : Machine) :
    (write i (.bool b) >>= fun _ => pure Flow.next) s = (.ok .next, s.decided i b) := by
  rw [Attempt.bind_apply, write_eq, if_pos hc]
  rfl

/-- EQ decides by loose equality of its two cells. -/
theorem step_eq (hop : i.op = .eq) (hc : i.a < memoryCapacity) (s : Machine) :
    step i s =
      (.ok .next, s.decided i ((s.memory.get i.b).looseEq (s.memory.get i.c))) := by
  simp only [step, compute, hop, Attempt.bind_assoc]
  exact write_bool hc _ s

theorem step_neq (hop : i.op = .neq) (hc : i.a < memoryCapacity) (s : Machine) :
    step i s =
      (.ok .next, s.decided i (!(s.memory.get i.b).looseEq (s.memory.get i.c))) := by
  simp only [step, compute, hop, Attempt.bind_assoc]
  exact write_bool hc _ s

/-- **Canonical values.**  If all values of a machine are canonical, then whatever code runs on it:

* All values stay canonical.
* Every string and every function was in the machine at the start.
* An equality instruction on operands that are no numbers decides whether they are the same value.
* Operands that it finds equal are the same as conditions. -/
theorem canonical_of_reaches (hm : ∀ v, m.Contains v → v.canonical) (h : Reaches m s) :
    (∀ v, s.Contains v → v.canonical) ∧
    (∀ v, s.Contains v → v.kind = .string ∨ v.kind = .function → m.Contains v) ∧
    ∀ i : Instruction, i.a < memoryCapacity →
      let v := s.memory.get i.b
      let w := s.memory.get i.c
      (v.kind ≠ .number → w.kind ≠ .number → i.op = .eq →
        step i s = (.ok .next, s.decided i (decide (v = w)))) ∧
      (v.kind ≠ .number → w.kind ≠ .number → i.op = .neq →
        step i s = (.ok .next, s.decided i (decide (v ≠ w)))) ∧
      (i.op = .eq → (step i s).2.memory.get i.a = .bool true → v.truthy = w.truthy) := by
  have horigin := origin_of_reaches h
  have hcanonical : Holds (fun v => v.canonical) s := horigin.imp fun v => canonical_of_origin hm
  have hcells := hcanonical.cells
  refine ⟨holds_iff.mp hcanonical,
    fun v hv hkind => contains_of_origin (holds_iff.mp horigin v hv) hkind, fun i hc => ?_⟩
  intro v w
  refine ⟨fun hv hw hop => ?_, fun hv hw hop => ?_, fun hop htrue => ?_⟩
  · rw [step_eq hop hc, Value.looseEq_eq_decide (hcells i.b) (hcells i.c) hv hw]
  · rw [step_neq hop hc, Value.looseEq_eq_decide (hcells i.b) (hcells i.c) hv hw, decide_not]
  · rw [step_eq hop hc, decided, Memory.get_put_self] at htrue
    refine Value.truthy_eq_of_looseEq (hcells i.b) (hcells i.c) ?_
    cases heq : (s.memory.get i.b).looseEq (s.memory.get i.c) with
    | true => rfl
    | false =>
        rw [heq] at htrue
        cases htrue

/-- A run copies a string and leaves a boolean beside it.  The copy is the string that was there,
and an equality instruction finds the two the same. -/
theorem canonical_of_reaches_string :
    let code : Code := #[{ op := .mov, a := 1, b := 0 }, { op := .not, a := 2, b := 0 }, .halt]
    let m : Machine :=
      { initial with memory := initial.memory.put 0 (.string 7), functions := ⟨[some code]⟩ }
    let s := (run 3 0 m).2
    s.memory.get 1 = .string 7 ∧ m.Contains (.string 7) ∧
      step { op := .eq, a := 3, b := 0, c := 1 } s =
        (.ok .next, s.decided { op := .eq, a := 3, b := 0, c := 1 } true) := by
  intro code m s
  have hinitial : Holds (fun v => v.canonical) { initial with functions := ⟨[some code]⟩ } := by
    refine ⟨fun cell => ?_, List.forall_mem_nil _, fun _ hframe => absurd hframe List.not_mem_nil⟩
    rw [initial, Memory.get_empty]
    decide
  have hm : Holds (fun v => v.canonical) m := hinitial.put (v := .string 7) (by decide) 0
  obtain ⟨-, hold, hequality⟩ :=
    canonical_of_reaches (holds_iff.mp hm) ((Reaches.refl.enter 0).after 3)
  refine ⟨by decide, hold _ (.inl ⟨1, by decide⟩) (.inl rfl), ?_⟩
  obtain ⟨heq, -, -⟩ := hequality { op := .eq, a := 3, b := 0, c := 1 } (by decide)
  exact heq (by decide) (by decide) rfl

end Machine

end ScriptLang
