import ScriptLang.Machine.CallStack
import ScriptLang.Machine.Error
import ScriptLang.Machine.FunctionTable

/-!
# The machine

A machine has memory, a call stack, a function table and a program counter.  `Machine.step` executes
one instruction; it moves the program counter only where the instruction transfers control.
`Machine.tick` fetches the instruction at the program counter, executes it and goes on to the next.
A run ticks until an instruction halts or fails.  How long that takes is not known beforehand, so
`Machine.interpret` takes the number of ticks it may use and says if they did not suffice.
-/

namespace ScriptLang

/-- The state of a program: values, calls, where it is, and its functions. -/
structure Machine where
  memory : Memory
  calls : CallStack
  pc : CodePoint
  functions : FunctionTable
  deriving DecidableEq, Repr

/-- What follows an instruction. -/
inductive Flow where
  /-- The next address. -/
  | next
  /-- Where the instruction has set the program counter. -/
  | jump
  | halt
  deriving DecidableEq, Repr

/-- Execution that may fail and leaves the machine as it then is. -/
abbrev Exec (α : Type) := Attempt Machine RuntimeError α

/-- How a run ends. -/
inductive RunResult where
  | finished
  | failed (error : RuntimeError)
  /-- The run is not over. -/
  | outOfFuel
  deriving DecidableEq, Repr

namespace Machine

/-- The machine before any function is added. -/
def initial : Machine :=
  { memory := .empty, calls := .initial, pc := { function := 0, address := 0 },
    functions := .empty }

/-- Adds a function and gives its id. -/
def addFunction (code : Code) (m : Machine) : Nat × Machine :=
  let (id, functions) := m.functions.add code
  (id, { m with functions := functions })

/-- Removes a function and gives its body. -/
def removeFunction (id : Nat) : Exec Code := fun m =>
  match m.functions.remove? id with
  | some (code, functions) => (.ok code, { m with functions := functions })
  | none => (.error (.functionNotFound id), m)

/-! ### Memory -/

/-- Reads a cell. -/
def read (i : Nat) : Exec Value := fun m => (.ok (m.memory.get i), m)

/-- Reads a local. -/
def readLocal (i : Nat) : Exec Value := fun m => (.ok (m.memory.getLocal i), m)

/-- Does something to memory; an error points at the instruction. -/
def onMemory {α : Type} (i : Instruction) (x : Attempt Memory MemoryError α) : Exec α :=
  fun ⟨memory, calls, pc, functions⟩ =>
    match x memory with
    | (.ok a, memory') => (.ok a, ⟨memory', calls, pc, functions⟩)
    | (.error e, memory') => (.error (.memory e i.pos), ⟨memory', calls, pc, functions⟩)

/-- Writes the cell that operand A names. -/
def write (i : Instruction) (v : Value) : Exec Unit := onMemory i (Memory.set i.a v)

/-- Writes the local that operand A names. -/
def writeLocal (i : Instruction) (v : Value) : Exec Unit := onMemory i (Memory.setLocal i.a v)

/-! ### The operand stack -/

/-- Pushes a value. -/
def push (v : Value) : Exec Unit := fun m =>
  (.ok (), { m with calls := m.calls.mapCurrent (Frame.push v) })

/-- The value on top. -/
def peek (i : Instruction) : Exec Value := fun m =>
  match m.calls.current.top? with
  | some v => (.ok v, m)
  | none => (.error (.stackUnderflow i.pos), m)

/-- Pops the value on top. -/
def pop (i : Instruction) : Exec Value := fun m =>
  match m.calls.current.pop? with
  | some (v, frame) => (.ok v, { m with calls := { m.calls with current := frame } })
  | none => (.error (.stackUnderflow i.pos), m)

/-! ### Control -/

/-- Calls function A with the top B values, which become the operands of the new frame. -/
def call (i : Instruction) : Exec Flow := fun m =>
  match m.functions.get? i.a with
  | none => (.error (.functionNotFound i.a), m)
  | some _ =>
    match m.calls.current.take? i.b with
    | none => (.error (.stackUnderflow i.pos), m)
    | some (args, caller) =>
      let target : CodePoint := { function := i.a, address := 0 }
      let frame : Frame := { source := m.pc, target := target, stack := args }
      (.ok .jump,
        { m with calls := { m.calls with current := caller }.push frame, pc := target })

/-- Returns to the caller with the top A values.  In the entry frame the machine halts. -/
def leave (i : Instruction) : Exec Flow := fun m =>
  match m.calls.callers with
  | [] => (.ok .halt, m)
  | caller :: rest =>
    match m.calls.current.take? i.a with
    | none => (.error (.stackUnderflow i.pos), m)
    | some (results, frame) =>
      (.ok .jump,
        { m with
          calls := { current := caller.append results, callers := rest }
          pc := { frame.source with address := frame.source.address + 1 } })

/-- Goes to address A of the same function. -/
def jump (i : Instruction) : Exec Flow := fun m =>
  (.ok .jump, { m with pc := { m.pc with address := i.a } })

/-! ### Arithmetic -/

/-- Reads a cell that has to hold a number. -/
def readNumber (i : Instruction) (cell : Nat) : Exec UInt64 := do
  let v ← read cell
  match v.number? with
  | some x => pure x
  | none => Attempt.fail (.nonNumericOperand i.pos)

/-- The value of a binary numeric operation. -/
def arithmetic (i : Instruction) (x y : UInt64) : Exec Value :=
  match i.op with
  | .ge => pure (.bool (Number.le y x))
  | .gt => pure (.bool (Number.lt y x))
  | .le => pure (.bool (Number.le x y))
  | .lt => pure (.bool (Number.lt x y))
  | .add => pure (.number (Number.add x y))
  | .sub => pure (.number (Number.sub x y))
  | .mul => pure (.number (Number.mul x y))
  | _ =>
    if Number.isZero y then Attempt.fail (.divideByZero i.pos)
    else pure (.number (Number.div x y))

/-! ### Steps -/

/-- Executes an instruction that goes on to the next address: it moves values between memory and the
operand stack or computes a cell.  The others do nothing here. -/
def compute (i : Instruction) : Exec Unit :=
  match i.op with
  | .store => do
    let v ← read i.b
    writeLocal i v
  | .load => do
    let v ← readLocal i.b
    write i v
  | .mov => do
    let v ← read i.b
    write i v
  | .push => do
    let v ← read i.a
    push v
  | .pop => do
    let v ← pop i
    write i v
  | .peek => do
    let v ← peek i
    write i v
  | .dup => do
    let v ← peek i
    push v
  | .not => do
    let v ← read i.b
    write i (.bool v.falsey)
  | .eq => do
    let v ← read i.b
    let w ← read i.c
    write i (.bool (v.looseEq w))
  | .neq => do
    let v ← read i.b
    let w ← read i.c
    write i (.bool (!v.looseEq w))
  | .and => do
    let v ← read i.b
    let w ← read i.c
    write i (.bool (v.truthy && w.truthy))
  | .or => do
    let v ← read i.b
    let w ← read i.c
    write i (.bool (v.truthy || w.truthy))
  | .inv => do
    let x ← readNumber i i.b
    write i (.number (Number.neg x))
  | .ge | .gt | .le | .lt | .add | .sub | .mul | .div => do
    let x ← readNumber i i.b
    let y ← readNumber i i.c
    let v ← arithmetic i x y
    write i v
  | .halt | .call | .leav | .jmp | .jmpt | .jmpf => pure ()

/-- Executes one instruction.  The program counter moves only if the instruction transfers
control. -/
def step (i : Instruction) : Exec Flow :=
  match i.op with
  | .halt => pure .halt
  | .call => call i
  | .leav => leave i
  | .jmp => jump i
  | .jmpt => do
    let v ← read i.b
    if v.truthy then jump i else pure .next
  | .jmpf => do
    let v ← read i.b
    if v.falsey then jump i else pure .next
  | _ => do
    compute i
    pure .next

/-- The instruction at the program counter. -/
def fetch : Exec Instruction := fun m =>
  match m.functions.get? m.pc.function with
  | none => (.error (.functionNotFound m.pc.function), m)
  | some code =>
    match code[m.pc.address]? with
    | some i => (.ok i, m)
    | none => (.error (.addressOutOfRange m.pc.function m.pc.address), m)

/-- Goes on to the next address. -/
def advance : Exec Unit := fun m =>
  (.ok (), { m with pc := { m.pc with address := m.pc.address + 1 } })

/-- Fetches and executes one instruction and moves on. -/
def tick : Exec Flow := do
  let i ← fetch
  let flow ← step i
  if flow = .next then
    advance
    pure flow
  else pure flow

/-! ### Runs -/

/-- Runs from the program counter on, for at most so many ticks. -/
def interpret : Nat → Machine → RunResult × Machine
  | 0, m => (.outOfFuel, m)
  | n + 1, m =>
    match tick m with
    | (.ok .halt, m') => (.finished, m')
    | (.ok _, m') => interpret n m'
    | (.error e, m') => (.failed e, m')

/-- The machine at the start of a function, with nothing on the call stack. -/
def enter (function : Nat) (m : Machine) : Machine :=
  { m with calls := .initial, pc := { function := function, address := 0 } }

/-- Runs a function from its start, for at most so many ticks. -/
def run (fuel : Nat) (function : Nat) (m : Machine) : RunResult × Machine :=
  interpret fuel (m.enter function)

end Machine

end ScriptLang
