import ScriptLang.Proofs.Machine.Run

/-!
# Calls are well bracketed

A call puts a frame on those that are there, and until that frame is gone nothing changes them:
every tick works on the current frame, and a return reaches only one frame further.  `Above base p`
is the shape that a call stack has all that time.  A tick keeps it or is the return that ends the
call (`Above.turn`), so the first state at the old depth is the one after that return.

* **Bracketing** (`call_bracketed`).  While a call lasts, the frames below it wait as the call left
  them.  When it is over, the machine is behind the call, and those frames are as before it but for
  the results in place of the arguments.
-/

namespace ScriptLang

theorem CallStack.length_frames (s : CallStack) : s.frames.length = s.depth := by
  simp [frames, depth]

namespace Machine

variable {m m' : Machine} {i : Instruction}

/-! ### The frames under a call -/

/-- The frame and its callers stand on the frames `base`; the one right on them was called from
`p`. -/
inductive Above (base : List Frame) (p : CodePoint) : Frame → List Frame → Prop where
  | callee {frame : Frame} (hp : frame.source = p) : Above base p frame base
  | nested {frame caller : Frame} {callers : List Frame} (h : Above base p caller callers) :
      Above base p frame (caller :: callers)

section Above

variable {base callers : List Frame} {p : CodePoint} {frame : Frame}

/-- What a frame has on its stack is nothing to those below it. -/
theorem Above.withStack (h : Above base p frame callers) (stack : List Value) :
    Above base p { frame with stack := stack } callers := by
  cases h with
  | callee hp => exact .callee hp
  | nested h => exact .nested h

theorem Above.length_le (h : Above base p frame callers) : base.length ≤ callers.length := by
  induction h with
  | callee => exact Nat.le_refl _
  | nested _ ih => exact Nat.le_succ_of_le ih

/-- The frames at the bottom are those of `base`. -/
theorem Above.take_frames (h : Above base p frame callers) :
    (frame :: callers).reverse.take base.length = base.reverse := by
  induction h with
  | callee => simp
  | nested h ih =>
      rw [List.reverse_cons, List.take_append_of_le_length, ih]
      simpa using Nat.le_succ_of_le h.length_le

/-- **One tick.**  It keeps the frames that the call stack stands on, or it is the return to
them. -/
theorem Above.turn (h : Above base p m.calls.current m.calls.callers) (hturn : Turn m m') :
    Above base p m'.calls.current m'.calls.callers ∨
      ∃ i caller callers results left, m.functions.instruction? m.pc = some i ∧ i.op = .leav ∧
        m.calls.current.stack = results ++ left ∧ results.length = i.a ∧
        m.calls.current.source = p ∧ m.calls.callers = base ∧ base = caller :: callers ∧
        m' = m.returned results caller callers := by
  cases hturn with
  | stay => exact .inl (h.withStack _)
  | call => exact .inl (.nested (h.withStack _))
  | @leave i caller callers results left hi hop hc hs ha =>
      rw [hc] at h
      cases h with
      | callee hp =>
          exact .inr ⟨i, caller, callers, results, left, hi, hop, hs, ha, hp, hc, rfl, rfl⟩
      | nested h => exact .inl (h.withStack _)

end Above

/-! ### From the call to the return -/

/-- The machine `m'` is in the call that `m` makes: the frames of `m` wait, the caller's with the
values `rest`. -/
structure InCall (m : Machine) (rest : List Value) (m' : Machine) : Prop where
  depth : m.calls.depth < m'.calls.depth
  frames : m'.calls.frames.take m.calls.depth =
    m.calls.frames.dropLast ++ [{ m.calls.current with stack := rest }]

/-- The machine `m'` is back from the call that `m` makes.  The machine `last` ran the matching
return `i` in the called frame, and the values `results` on its stack went onto the caller's
`rest`. -/
structure BackFrom (m : Machine) (rest : List Value) (last : Machine) (i : Instruction)
    (results : List Value) (m' : Machine) : Prop where
  fetch : fetch last = (.ok i, last)
  op : i.op = .leav
  depth : last.calls.depth = m.calls.depth + 1
  source : last.calls.current.source = m.pc
  count : results.length = i.a
  stack : ∃ left, last.calls.current.stack = results ++ left
  pc : m'.pc = { m.pc with address := m.pc.address + 1 }
  frames : m'.calls.frames =
    m.calls.frames.dropLast ++ [{ m.calls.current with stack := results ++ rest }]

/-- The frames that wait for the call that `m` makes, innermost first. -/
def waiting (m : Machine) (rest : List Value) : List Frame :=
  { m.calls.current with stack := rest } :: m.calls.callers

/-- The call stack of `m'` stands on the frames that wait for the call that `m` makes. -/
abbrev AboveWaiting (m : Machine) (rest : List Value) (m' : Machine) : Prop :=
  Above (m.waiting rest) m.pc m'.calls.current m'.calls.callers

theorem reverse_waiting (m : Machine) (rest : List Value) :
    (m.waiting rest).reverse =
      m.calls.frames.dropLast ++ [{ m.calls.current with stack := rest }] := by
  simp [waiting, CallStack.frames]

/-- A stack that stands on the waiting frames is in the call they wait for. -/
theorem AboveWaiting.inCall {rest : List Value} (h : AboveWaiting m rest m') : InCall m rest m' :=
  ⟨Nat.succ_le_succ h.length_le, by rw [← reverse_waiting, ← h.take_frames]; rfl⟩

/-- A return comes back to the depth of the call. -/
theorem BackFrom.depth_eq {rest results : List Value} {last : Machine}
    (h : BackFrom m rest last i results m') : m'.calls.depth = m.calls.depth := by
  rw [← CallStack.length_frames, ← CallStack.length_frames, h.frames]
  simp [CallStack.frames]

/-- One state further, a run still stands on the frames that wait or is back from the call. -/
theorem AboveWaiting.after_succ {rest : List Value} {n : Nat}
    (h : AboveWaiting m rest (m.after n)) :
    AboveWaiting m rest (m.after (n + 1)) ∨
      ∃ i results, BackFrom m rest (m.after n) i results (m.after (n + 1)) := by
  rcases Machine.after_succ n m with heq | heq
  · rw [heq]
    exact .inl h
  · rw [heq]
    refine (h.turn (turn_tick _)).imp_right ?_
    rintro ⟨i, caller, callers, results, left, hi, hop, hs, ha, hp, hbase, hwaiting, hlast⟩
    obtain ⟨rfl, rfl⟩ := List.cons.inj hwaiting
    refine ⟨i, results, fetch_of_instruction hi, hop, ?_, hp, ha, ⟨left, hs⟩, ?_, ?_⟩
    · rw [CallStack.depth, hbase]
      rfl
    · rw [hlast, returned, hp]
    · rw [hlast, ← reverse_waiting]
      rfl

/-- **The run.**  Until the depth is that of the caller again, the call stack stands on the frames
that wait. -/
theorem aboveWaiting_after {rest : List Value} (h : AboveWaiting m rest (m.after 1)) (n : Nat)
    (hn : ∀ k, 0 < k → k ≤ n + 1 → (m.after k).calls.depth ≠ m.calls.depth) :
    AboveWaiting m rest (m.after (n + 1)) := by
  induction n with
  | zero => exact h
  | succ n ih =>
      have habove := ih fun k hk hkn => hn k hk (Nat.le_succ_of_le hkn)
      refine habove.after_succ.resolve_right fun ⟨_, _, hback⟩ => ?_
      exact hn (n + 2) (Nat.succ_pos _) (Nat.le_refl _) hback.depth_eq

/-- A call that succeeds has its function and its arguments. -/
theorem step_call {flow : Flow} (hop : i.op = .call) (hok : (step i m).1 = .ok flow) :
    ∃ args rest, m.calls.current.stack = args ++ rest ∧ args.length = i.b ∧
      step i m = (.ok .jump, m.called i.a args rest) := by
  have heffect := effect_step i m
  generalize step i m = result at heffect hok ⊢
  cases heffect with
  | call _ _ hs hb => exact ⟨_, _, hs, hb, rfl⟩
  | refused | missing | unwritable | lost => cases hok
  | write _ hd => simp [Instruction.destination?, hop] at hd
  | halt h | exit h | leave h | jump h | pass h | push h | pop h =>
      simp [hop, Opcode.isJump] at h

/-- **Bracketing.**  While a call lasts, the frames below it wait as the call left them.  The first
time the depth is that of the caller again, the machine is back from the call. -/
theorem call_bracketed {flow : Flow} (hi : fetch m = (.ok i, m)) (hop : i.op = .call)
    (hok : (step i m).1 = .ok flow) :
    ∃ args rest, m.calls.current.stack = args ++ rest ∧ args.length = i.b ∧
      (m.after 1).calls.frames = m.calls.frames.dropLast ++
        [{ m.calls.current with stack := rest },
          { source := m.pc, target := { function := i.a, address := 0 }, stack := args }] ∧
      ∀ n, 0 < n → (∀ k, 0 < k → k < n → (m.after k).calls.depth ≠ m.calls.depth) →
        ((m.after n).calls.depth ≠ m.calls.depth → InCall m rest (m.after n)) ∧
        ((m.after n).calls.depth = m.calls.depth →
          ∃ j results, BackFrom m rest (m.after (n - 1)) j results (m.after n)) := by
  obtain ⟨args, rest, hs, hb, hstep⟩ := step_call hop hok
  have hafter : m.after 1 = m.called i.a args rest := by
    simp [after, interpret, tick, Attempt.bind_apply, hi, hstep]
  have habove : AboveWaiting m rest (m.after 1) := by
    rw [hafter]
    exact .callee rfl
  refine ⟨args, rest, hs, hb, ?_, fun n hn hbefore => ?_⟩
  · rw [hafter]
    simp [called, CallStack.frames]
  · obtain ⟨n, rfl⟩ : ∃ k, n = k + 1 := ⟨n - 1, by omega⟩
    constructor
    · intro hne
      refine (aboveWaiting_after habove n fun k hk hkn => ?_).inCall
      rcases Nat.lt_or_eq_of_le hkn with hlt | rfl
      · exact hbefore k hk hlt
      · exact hne
    -- The state before the return stands on the waiting frames, so the first tick is not it.
    · intro heq
      cases n with
      | zero => exact absurd heq (Nat.ne_of_gt habove.inCall.depth)
      | succ n =>
          have hlast := aboveWaiting_after habove n fun k hk hkn =>
            hbefore k hk (Nat.lt_succ_of_le hkn)
          refine hlast.after_succ.resolve_left fun hstays => ?_
          exact absurd heq (Nat.ne_of_gt hstays.inCall.depth)

/-- A function that calls another, which calls a third before it returns the argument. -/
def nestedCalls : Machine :=
  { initial with
    calls := { initial.calls with current := { Frame.entry with stack := [.bool true, .nil] } }
    functions := { slots := [some #[{ op := .call, a := 1, b := 1 }, .halt],
      some #[{ op := .call, a := 2, b := 0 }, { op := .leav, a := 1 }], some #[{ op := .leav }]] } }

/-- The fourth tick returns from the first call, over the return from the second. -/
theorem call_bracketed_nested : ∃ rest i results,
    BackFrom nestedCalls rest (nestedCalls.after 3) i results (nestedCalls.after 4) := by
  have hcall := call_bracketed (m := nestedCalls) (i := { op := .call, a := 1, b := 1 }) rfl rfl rfl
  obtain ⟨args, rest, -, -, -, hrun⟩ := hcall
  have hdeeper : ∀ k, 0 < k → k < 4 → (nestedCalls.after k).calls.depth ≠ nestedCalls.calls.depth
  | 1, _, _ | 2, _, _ | 3, _, _ => by decide
  obtain ⟨j, results, hback⟩ := (hrun 4 (by decide) hdeeper).2 rfl
  exact ⟨rest, j, results, hback⟩

end Machine

end ScriptLang
