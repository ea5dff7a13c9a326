import ScriptLang.Proofs.Machine.CallChain

/-!
# Code that control does not run out of

Code is confined if it ends in an instruction that nothing goes on from and its jumps stay inside.
Whatever else the machine holds, control that is in a confined function is at one of its
instructions: it enters at the start, and it comes back to it only behind a call, which is never the
last instruction (`Chain`).

* `address_lt_after`: in every state of a run, control is inside confined code or elsewhere.
* `run_ne_addressOutOfRange`: no run fails for want of an instruction of confined code.
-/

namespace ScriptLang

/-- Code that control leaves only by a call, by a return or for good. -/
structure Code.Confined (code : Code) : Prop where
  last : ∃ i, code.back? = some i ∧ i.op.endsCode
  jumps : ∀ i ∈ code, i.op.isJump → i.a < code.size

namespace Code.Confined

variable {code : Code} {i : Instruction} {a : Nat}

/-- Confined code is not empty: it ends in an instruction. -/
theorem size_pos (h : code.Confined) : 0 < code.size := by
  obtain ⟨i, hi, -⟩ := h.last
  rw [Array.back?_eq_getElem?] at hi
  exact Nat.zero_lt_of_lt (Array.getElem?_eq_some_iff.mp hi).1

/-- An instruction that goes on to the next address is not the last. -/
theorem succ_lt (h : code.Confined) (hi : code[a]? = some i) (hop : i.op.endsCode = false) :
    a + 1 < code.size := by
  obtain ⟨ha, -⟩ := Array.getElem?_eq_some_iff.mp hi
  refine Nat.lt_of_le_of_ne ha fun heq => ?_
  obtain ⟨j, hj, hends⟩ := h.last
  rw [Array.back?_eq_getElem?, ← heq, Nat.add_sub_cancel, hi] at hj
  rw [← Option.some.inj hj, hop] at hends
  cases hends

end Code.Confined

namespace Machine

variable {m m' : Machine} {code : Code} {t : FunctionTable} {start f : Nat}

/-- Within a function, addresses are places in its code. -/
theorem instruction?_of_get {p : CodePoint} (hcode : t.get? f = some code) (hp : p.function = f) :
    t.instruction? p = code[p.address]? := by
  rw [FunctionTable.instruction?, hp, hcode, Option.bind_some]

/-- **One tick** does not take control out of confined code. -/
theorem Running.address_lt_of_turn (h : Running t start m) (hcode : t.get? f = some code)
    (hc : code.Confined) (hm : m.pc.function = f → m.pc.address < code.size) (hturn : Turn m m')
    (hf : m'.pc.function = f) : m'.pc.address < code.size := by
  have hfunctions := h.functions
  cases hturn with
  | @stay _ _ address hpc =>
      have hf : m.pc.function = f := hf
      change address < code.size
      rw [hfunctions, instruction?_of_get hcode hf] at hpc
      rcases hpc with rfl | ⟨i, hi, ⟨rfl, hop⟩ | ⟨hop, rfl⟩⟩
      · exact hm hf
      · exact hc.succ_lt hi hop
      · exact hc.jumps i (Array.mem_of_getElem? hi) hop
  | call => exact hc.size_pos
  -- Control comes back behind the call that the frame came from.
  | leave _ _ hcallers =>
      have hf : m.calls.current.source.function = f := hf
      have hchain := h.chain
      rw [hcallers] at hchain
      generalize m.pc.function = function at hchain
      cases hchain with
      | call _ hi hop =>
          rw [instruction?_of_get hcode hf] at hi
          exact hc.succ_lt hi (by rw [hop]; rfl)

/-- **The run** does not either. -/
theorem address_lt_after (hcode : m.functions.get? f = some code) (hc : code.Confined)
    (start n : Nat) (hf : ((m.enter start).after n).pc.function = f) :
    ((m.enter start).after n).pc.address < code.size := by
  -- A return is safe because of the chain of calls, so the run keeps both.
  refine (after_of_turn (P := fun m' => Running m.functions start m' ∧
    (m'.pc.function = f → m'.pc.address < code.size)) ?_ ?_ n).2 hf
  · intro m₁ m₂ h hturn
    exact ⟨h.1.turn hturn, h.1.address_lt_of_turn hcode hc h.2 hturn⟩
  · exact ⟨⟨rfl, .entry rfl rfl⟩, fun _ => hc.size_pos⟩

/-- Only a fetch fails for want of an instruction. -/
theorem tick_addressOutOfRange {a : Nat} (h : tick m = (.error (.addressOutOfRange f a), m')) :
    m.pc.function = f ∧ ∀ code, m.functions.get? f = some code → code.size ≤ m.pc.address := by
  rcases tick_error h with ⟨hfetch, -⟩ | ⟨i, -, hstep⟩
  · cases hi : m.functions.instruction? m.pc with
    | some i =>
        rw [fetch_of_instruction hi] at hfetch
        cases hfetch
    | none =>
        obtain ⟨e, he, ⟨-, rfl⟩ | ⟨code, hcode, hsize, rfl⟩⟩ := fetch_of_none hi
        · rw [hfetch] at he
          cases he
        · rw [hfetch] at he
          cases he
          exact ⟨rfl, fun code' hcode' => by rw [hcode] at hcode'; cases hcode'; exact hsize⟩
  · have heffect := effect_step i m
    rw [hstep] at heffect
    cases heffect with
    | refused he => rcases he with he | he | he <;> cases he

/-- No run fails for want of an instruction of confined code. -/
theorem run_ne_addressOutOfRange (hcode : m.functions.get? f = some code) (hc : code.Confined)
    (n start a : Nat) : (run n start m).1 ≠ .failed (.addressOutOfRange f a) := by
  intro hfailed
  have hrun : run n start m = (.failed (.addressOutOfRange f a), (run n start m).2) :=
    Prod.ext hfailed rfl
  obtain ⟨k, htick⟩ := tick_of_interpret_failed hrun
  obtain ⟨hf, hsize⟩ := tick_addressOutOfRange htick
  have hget : ((m.enter start).after k).functions.get? f = some code := by
    rw [(running_after m start k).functions, hcode]
  exact Nat.not_le_of_lt (address_lt_after hcode hc start k hf) (hsize code hget)

end Machine

end ScriptLang
