import ScriptLang.Proofs.Machine.Run

/-!
# The chain of calls

During a run every frame but the entry frame was made by a call instruction of the function that
runs in the frame below, and runs the function that this instruction names.  `Chain t start` builds
the call stacks of this kind from the entry frame up, one frame for every call, with the function
that runs in the current frame.  A tick keeps them (`Chain.turn`), since the frames under the
current one change only in their operands.

* **The chain of a run** (`run_linked`).  All states of a run of a function that exists have such
  call stacks, here read off frame by frame (`Linked`).  So control is always in a function that
  exists, and only a call can miss its function.
-/

namespace ScriptLang.Machine

/-- The function that runs in the `k`-th frame from the bottom: in the entry frame the one that the
run began with, in any other the one that was called. -/
def activeFunction? (start : Nat) (frames : List Frame) : Nat → Option Nat
  | 0 => some start
  | k + 1 => frames[k + 1]?.map fun frame => frame.target.function

/-- The frames of a run of `start`, bottom first, while control is in `function`. -/
structure Linked (t : FunctionTable) (start : Nat) (frames : List Frame) (function : Nat) :
    Prop where
  entry : ∃ frame, frames[0]? = some frame ∧ frame.source = ⟨0, 0⟩ ∧ frame.target = ⟨0, 0⟩
  target : ∀ k frame, frames[k + 1]? = some frame → frame.target.address = 0
  source : ∀ k frame, frames[k + 1]? = some frame →
    activeFunction? start frames k = some frame.source.function
  call : ∀ k frame, frames[k + 1]? = some frame → ∃ i, t.instruction? frame.source = some i ∧
    i.op = .call ∧ activeFunction? start frames (k + 1) = some i.a
  current : activeFunction? start frames (frames.length - 1) = some function

/-- The frames of a run of `start`, the current one and its callers, while control is in the
function given last. -/
inductive Chain (t : FunctionTable) (start : Nat) : Frame → List Frame → Nat → Prop where
  | entry {frame : Frame} (hs : frame.source = ⟨0, 0⟩) (ht : frame.target = ⟨0, 0⟩) :
      Chain t start frame [] start
  | call {frame caller : Frame} {callers : List Frame} {i : Instruction}
      (h : Chain t start caller callers frame.source.function)
      (hi : t.instruction? frame.source = some i) (hop : i.op = .call)
      (hf : (t.get? i.a).isSome) (ht : frame.target = ⟨i.a, 0⟩) :
      Chain t start frame (caller :: callers) i.a

variable {t : FunctionTable} {start function : Nat} {frame : Frame} {callers : List Frame}

theorem Chain.withStack (h : Chain t start frame callers function) (stack : List Value) :
    Chain t start { frame with stack := stack } callers function := by
  cases h with
  | entry hs ht => exact .entry hs ht
  | call h hi hop hf ht => exact .call h hi hop hf ht

/-- Control is in a function that exists. -/
theorem Chain.isSome (hstart : (t.get? start).isSome) (h : Chain t start frame callers function) :
    (t.get? function).isSome := by
  cases h with
  | entry => exact hstart
  | call _ _ _ hf _ => exact hf

/-! ### Frame by frame -/

/-- What is active in a frame is told by the frame, so those on top of it do not matter. -/
theorem activeFunction?_append {frames : List Frame} {k : Nat} (hk : k < frames.length) :
    activeFunction? start (frames ++ [frame]) k = activeFunction? start frames k := by
  cases k with
  | zero => rfl
  | succ k => rw [activeFunction?, List.getElem?_append_left hk]; rfl

/-- In a frame on top the function is active that it was called for. -/
theorem activeFunction?_length {frames : List Frame} (hpos : 0 < frames.length) :
    activeFunction? start (frames ++ [frame]) frames.length = some frame.target.function := by
  obtain ⟨n, hn⟩ : ∃ n, frames.length = n + 1 := ⟨frames.length - 1, by omega⟩
  rw [hn, activeFunction?, ← hn, List.getElem?_append_right (Nat.le_refl _)]
  simp

/-- A call from the top of linked frames links one frame more. -/
theorem Linked.call_top {frames : List Frame} {i : Instruction}
    (h : Linked t start frames frame.source.function) (hi : t.instruction? frame.source = some i)
    (hop : i.op = .call) (ht : frame.target = ⟨i.a, 0⟩) :
    Linked t start (frames ++ [frame]) i.a := by
  have hpos : 0 < frames.length := by
    obtain ⟨_, h0, -⟩ := h.entry
    exact (List.getElem?_eq_some_iff.mp h0).1
  have htop : activeFunction? start (frames ++ [frame]) frames.length = some i.a := by
    rw [activeFunction?_length hpos, ht]
  -- A frame above the entry frame is an old one or the new one.
  have hcases : ∀ k f, (frames ++ [frame])[k + 1]? = some f →
      (k + 1 < frames.length ∧ frames[k + 1]? = some f) ∨ (k + 1 = frames.length ∧ f = frame) := by
    intro k f hf
    rcases Nat.lt_or_ge (k + 1) frames.length with hlt | hge
    · exact .inl ⟨hlt, by rwa [List.getElem?_append_left hlt] at hf⟩
    · rw [List.getElem?_append_right hge, List.getElem?_singleton] at hf
      split at hf
      · exact .inr ⟨by omega, (Option.some.inj hf).symm⟩
      · cases hf
  refine ⟨?_, ?_, ?_, ?_, ?_⟩
  · obtain ⟨f, h0, hf⟩ := h.entry
    exact ⟨f, by rwa [List.getElem?_append_left hpos], hf⟩
  · intro k f hf
    rcases hcases k f hf with ⟨-, hf⟩ | ⟨-, rfl⟩
    · exact h.target k f hf
    · rw [ht]
  · intro k f hf
    rcases hcases k f hf with ⟨hlt, hf⟩ | ⟨heq, rfl⟩
    · rw [activeFunction?_append (by omega)]
      exact h.source k f hf
    · have hcurrent := h.current
      rw [← heq] at hcurrent
      rw [activeFunction?_append (by omega)]
      exact hcurrent
  · intro k f hf
    rcases hcases k f hf with ⟨hlt, hf⟩ | ⟨heq, rfl⟩
    · rw [activeFunction?_append hlt]
      exact h.call k f hf
    · exact ⟨i, hi, hop, heq ▸ htop⟩
  · simpa using htop

/-- A chain that is built from the top holds frame by frame from the bottom. -/
theorem Chain.linked (h : Chain t start frame callers function) :
    Linked t start (frame :: callers).reverse function := by
  induction h with
  | @entry frame hs ht => exact ⟨⟨frame, rfl, hs, ht⟩, nofun, nofun, nofun, rfl⟩
  | call _ hi hop _ ht ih =>
      rw [List.reverse_cons]
      exact ih.call_top hi hop ht

/-! ### Runs -/

variable {m m' : Machine}

/-- **One tick** keeps the chain of calls. -/
theorem Chain.turn (h : Chain m.functions start m.calls.current m.calls.callers m.pc.function)
    (hturn : Turn m m') :
    Chain m'.functions start m'.calls.current m'.calls.callers m'.pc.function := by
  cases hturn with
  | stay => exact h.withStack _
  | call hi hop hf => exact .call (h.withStack _) hi hop hf rfl
  -- The frame under the current one runs the function that the call came from.
  | leave _ _ hc =>
      rw [hc] at h
      generalize m.pc.function = function at h
      cases h with
      | call h => exact h.withStack _

theorem Turn.functions_eq (hturn : Turn m m') : m'.functions = m.functions := by
  cases hturn <;> rfl

/-- What is true of a machine during a run of `start` with the functions `t`. -/
structure Running (t : FunctionTable) (start : Nat) (m : Machine) : Prop where
  functions : m.functions = t
  chain : Chain t start m.calls.current m.calls.callers m.pc.function

/-- **One tick** keeps all that is true of a run. -/
theorem Running.turn (h : Running t start m) (hturn : Turn m m') : Running t start m' := by
  have hfunctions := hturn.functions_eq.trans h.functions
  refine ⟨hfunctions, ?_⟩
  have hchain := h.chain
  rw [← h.functions] at hchain
  exact hfunctions ▸ hchain.turn hturn

/-- **The run** keeps it, too. -/
theorem running_after (m : Machine) (start n : Nat) :
    Running m.functions start ((m.enter start).after n) := by
  have hentry : Running m.functions start (m.enter start) := ⟨rfl, .entry rfl rfl⟩
  exact after_of_turn (fun _ _ => Running.turn) hentry n

/-- Where control is in a function that exists, no fetch misses it. -/
theorem fetch_ne_functionNotFound (h : (m.functions.get? m.pc.function).isSome) (f : Nat) :
    (fetch m).1 ≠ .error (.functionNotFound f) := by
  obtain ⟨code, hcode⟩ := Option.isSome_iff_exists.mp h
  cases hi : m.functions.instruction? m.pc with
  | some i => simp [fetch_of_instruction hi]
  | none =>
      obtain ⟨e, hfetch, ⟨hnone, -⟩ | ⟨-, -, -, rfl⟩⟩ := fetch_of_none hi
      · rw [hcode] at hnone
        cases hnone
      · simp [hfetch]

/-- A step misses a function only where it is a call of it. -/
theorem step_functionNotFound {i : Instruction} {f : Nat}
    (h : step i m = (.error (.functionNotFound f), m')) :
    i.op = .call ∧ i.a = f ∧ m.functions.get? f = none ∧ m' = m := by
  have heffect := effect_step i m
  rw [h] at heffect
  cases heffect with
  | missing hop hf => exact ⟨hop, rfl, hf, rfl⟩
  | refused he => rcases he with he | he | he <;> cases he

/-- **The chain of a run.**  In every state of a run of a function that exists, the frames are
linked by calls and control is in a function that exists.  If the run misses a function, then at a
call of it. -/
theorem run_linked (hstart : (m.functions.get? start).isSome) (n : Nat) :
    (run n start m).2.functions = m.functions ∧ 1 ≤ (run n start m).2.calls.depth ∧
      Linked m.functions start (run n start m).2.calls.frames (run n start m).2.pc.function ∧
      (∀ f, (fetch (run n start m).2).1 ≠ .error (.functionNotFound f)) ∧
      ∀ f, (run n start m).1 = .failed (.functionNotFound f) →
        ∃ i, fetch (run n start m).2 = (.ok i, (run n start m).2) ∧ i.op = .call ∧ i.a = f ∧
          m.functions.get? f = none := by
  have hexists : ∀ k, (((m.enter start).after k).functions.get?
      ((m.enter start).after k).pc.function).isSome := fun k => by
    have h := running_after m start k
    rw [h.functions]
    exact h.chain.isSome hstart
  have hrunning := running_after m start n
  refine ⟨hrunning.functions, Nat.succ_pos _, hrunning.chain.linked,
    fetch_ne_functionNotFound (hexists n), fun f hfailed => ?_⟩
  have hrun : run n start m = (.failed (.functionNotFound f), (run n start m).2) :=
    Prod.ext hfailed rfl
  obtain ⟨k, htick⟩ := tick_of_interpret_failed hrun
  rcases tick_error htick with ⟨hfetch, -⟩ | ⟨i, hi, hstep⟩
  · exact absurd (congrArg Prod.fst hfetch) (fetch_ne_functionNotFound (hexists k) f)
  · obtain ⟨hop, ha, hnone, hlast⟩ := step_functionNotFound hstep
    rw [(running_after m start k).functions] at hnone
    refine ⟨i, ?_, hop, ha, hnone⟩
    rw [hlast]
    exact fetch_of_instruction hi

/-- A run in which the called function calls one that is not there. -/
theorem run_linked_missing : ∃ m : Machine, (m.functions.get? 0).isSome ∧
    (run 2 0 m).1 = .failed (.functionNotFound 7) ∧ ∃ i, i.op = .call ∧ i.a = 7 ∧
      fetch (run 2 0 m).2 = (.ok i, (run 2 0 m).2) := by
  let m : Machine := { initial with functions := { slots :=
    [some #[{ op := .call, a := 1 }, .halt], some #[{ op := .call, a := 7 }, { op := .leav }]] } }
  obtain ⟨-, -, -, -, hmissing⟩ := @run_linked 0 m rfl 2
  obtain ⟨i, hfetch, hop, ha, -⟩ := hmissing 7 rfl
  exact ⟨m, rfl, rfl, i, hop, ha, hfetch⟩

end ScriptLang.Machine
