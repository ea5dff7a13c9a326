import Mathlib.Data.List.Forall2
import ScriptLang.Generator
import ScriptLang.Proofs.Storage.Declarations

/-!
# Names and scopes

While a generator is used, function scopes are opened and closed and names are declared.  All that
matters for names is which ones were declared, in which order, at global scope and in each open
function scope: the `Environment`.  It says what a name stands for (`Environment.resolve`) and which
variable a declaration makes (`Environment.declare`), by counting declarations.  The slots of a
generator represent its environment (`Represents`), and every action keeps it so.

What is under an open scope is out of reach until the scope is closed (`Over`).

* `Represents.apply`, `represents_after`: the slots represent the environment.
* `over_after`: actions that leave a scope open change nothing under it.
* **Scoping** (`resolve_after`).  What names stand for in any state of a generator, and that a scope
  which is opened and closed leaves no trace.
-/

namespace ScriptLang

/-- The names declared at global scope and in the open function scopes, innermost first, each in the
order of their declarations. -/
structure Environment where
  globals : List Symbol
  scopes : List (List Symbol)
  deriving DecidableEq, Repr

namespace Environment

/-- Nothing is declared and no scope is open. -/
def empty : Environment := { globals := [], scopes := [] }

/-- What a name stands for: the variable of its first declaration in the innermost scope, or else of
its first declaration at global scope. -/
def resolve (env : Environment) (name : Symbol) : Option Variable :=
  let place (storage : StorageClass) (names : List Symbol) : Option Variable :=
    (names.idxOf? name).map fun k => ⟨.symbol name, storage, k⟩
  (env.scopes.head?.bind (place .scope)) <|> place .memory env.globals

/-- The variable that a declaration makes: the place is the number of declarations before it, in the
innermost scope or, where none is open, at global scope. -/
def declare (env : Environment) (name : Symbol) : Variable :=
  match env.scopes with
  | [] => ⟨.symbol name, .memory, env.globals.length⟩
  | names :: _ => ⟨.symbol name, .scope, names.length⟩

end Environment

namespace Generator

/-- What is done to a generator. -/
inductive Action where
  | enter
  | leave
  | declare (name : Symbol)
  | emit (i : Instruction)
  | patch (address target : Nat)
  deriving DecidableEq, Repr

namespace Action

/-- The generator after an action.  One that fails changes nothing. -/
def apply (g : Generator) : Action → Generator
  | enter => g.enter.toOption.getD g
  | leave => g.leave.2
  | declare name => (g.declare (.symbol name)).2
  | emit i => (g.emit i).2
  | patch address target => (g.patch address target).toOption.getD g

/-- The environment after an action. -/
def track (env : Environment) : Action → Environment
  | enter => if env.scopes.length = 16 then env else { env with scopes := [] :: env.scopes }
  | leave => { env with scopes := env.scopes.tail }
  | declare name =>
    match env.scopes with
    | [] => { env with globals := env.globals ++ [name] }
    | names :: rest => { env with scopes := (names ++ [name]) :: rest }
  | emit _ | patch _ _ => env

end Action

/-- The generator after a history. -/
def after (g : Generator) (actions : List Action) : Generator := actions.foldl Action.apply g

/-- The environment after a history that begins with nothing. -/
def environment (actions : List Action) : Environment := actions.foldl Action.track .empty

/-- The actions close no scope that is open before them, and close every scope that they open. -/
def Balanced (g : Generator) (actions : List Action) : Prop :=
  (g.after actions).scopes.depth = g.scopes.depth ∧
    ∀ first, first <+: actions → g.scopes.depth ≤ (g.after first).scopes.depth

variable {env : Environment} {g g' : Generator}

/-! ### Environments and slots -/

/-- The slots of a generator hold the names of an environment. -/
structure Represents (env : Environment) (g : Generator) : Prop where
  registers : g.symbols.registers = SymbolTable.initial.registers
  constants : g.symbols.constants = SymbolTable.initial.constants
  storage : g.symbols.memory.storage = .memory
  globals : g.symbols.memory.Holds env.globals
  scopes : List.Forall₂ Scope.Holds env.scopes g.scopes.scopes
  depth : env.scopes.length ≤ 16

theorem represents_initial : Represents .empty initial :=
  ⟨rfl, rfl, rfl, Section.holds_ofSize .memory sectionSize, .nil, Nat.zero_le _⟩

/-- Scopes are as deep as the environment says. -/
theorem Represents.depth_eq (h : Represents env g) : g.scopes.depth = env.scopes.length :=
  h.scopes.length_eq.symm

/-- A scope is entered with no declarations, up to sixteen of them. -/
theorem enter_eq (g : Generator) :
    g.enter = if g.scopes.depth < 16 then
      .ok { g with scopes := { scopes := .initial :: g.scopes.scopes } }
      else .error .stackOverflow := by
  unfold enter ScopeStack.enter ScopeStack.capacity
  by_cases h : g.scopes.depth < 16
  · rw [if_pos h, if_pos h]
    rfl
  · rw [if_neg h, if_neg h]
    rfl

/-- A declaration makes the variable that the environment says, and the slots hold the name. -/
theorem Represents.declare (h : Represents env g) (name : Symbol) :
    (g.declare (.symbol name)).1 = env.declare name ∧
      Represents ((Action.declare name).track env) (g.declare (.symbol name)).2 := by
  obtain ⟨globals, scopes⟩ := env
  obtain ⟨code, symbols, ⟨stack⟩⟩ := g
  cases h.scopes with
  | nil =>
      obtain ⟨hindex, hholds, hstorage⟩ := h.globals.add name
      refine ⟨?_, h.registers, h.constants, hstorage.trans h.storage, hholds, .nil, h.depth⟩
      simp only [Generator.declare, ScopeStack.current?, List.head?_nil, SymbolTable.add,
        SymbolTable.get, hindex]
      rfl
  | cons hscope hrest =>
      obtain ⟨hvariable, hholds⟩ := hscope.declare name
      exact ⟨hvariable, h.registers, h.constants, h.storage, h.globals, .cons hholds hrest, h.depth⟩

/-- **One action** keeps the slots in accord with the environment. -/
theorem Represents.apply (h : Represents env g) (a : Action) :
    Represents (a.track env) (a.apply g) := by
  cases a with
  | enter =>
      simp only [Action.apply, Action.track, enter_eq, h.depth_eq]
      have hdepth := h.depth
      by_cases hfull : env.scopes.length = 16
      · rw [if_pos hfull, if_neg (by omega)]
        exact h
      · rw [if_neg hfull, if_pos (by omega)]
        exact { h with scopes := .cons Scope.holds_initial h.scopes, depth := by simp; omega }
  | leave =>
      obtain ⟨globals, scopes⟩ := env
      obtain ⟨code, symbols, ⟨stack⟩⟩ := g
      have hdepth := h.depth
      cases h.scopes with
      | nil => exact h
      | cons _ hrest => exact { h with scopes := hrest, depth := Nat.le_of_succ_le hdepth }
  | declare name => exact (h.declare name).2
  | emit i => exact { h with }
  | patch address target =>
      simp only [Action.apply, Action.track, patch]
      cases g.code[address]? with
      | none => exact h
      | some i => exact { h with }

/-- **A history** does, too. -/
theorem represents_after (actions : List Action) :
    Represents (environment actions) (initial.after actions) := by
  have hrun : ∀ env g, Represents env g →
      Represents (actions.foldl Action.track env) (g.after actions) := by
    induction actions with
    | nil => exact fun _ _ h => h
    | cons a actions ih => exact fun _ _ h => ih _ _ (h.apply a)
  exact hrun _ _ represents_initial

/-- A generator resolves names as the environment does that its slots represent. -/
theorem Represents.resolve (h : Represents env g) (name : Symbol) :
    g.resolve (.symbol name) = env.resolve name := by
  have hlocal : (g.scopes.current?.bind fun scope => scope.find? (.symbol name)) =
      env.scopes.head?.bind fun names =>
        (names.idxOf? name).map fun k => ⟨.symbol name, .scope, k⟩ := by
    obtain ⟨globals, scopes⟩ := env
    obtain ⟨code, symbols, ⟨stack⟩⟩ := g
    cases h.scopes with
    | nil => rfl
    | cons hscope _ => exact hscope.find? name
  -- The registers and the constants have no names.
  have hglobal : g.symbols.lookup (.symbol name) =
      (env.globals.idxOf? name).map fun k => ⟨.symbol name, .memory, k⟩ := by
    have hregisters : SymbolTable.initial.registers.find? (.symbol name) = none := rfl
    have hconstants : SymbolTable.initial.constants.find? (.symbol name) = none := rfl
    simp [SymbolTable.lookup, h.registers, h.constants, hregisters, hconstants,
      h.globals.find? name, h.storage]
  rw [Generator.resolve, hlocal, hglobal]
  rfl

/-! ### Under an open scope -/

/-- The scopes `base` are open under another one, and global storage is `symbols`. -/
structure Over (base : List Scope) (symbols : SymbolTable) (g : Generator) : Prop where
  scopes : ∃ scope above, g.scopes.scopes = scope :: (above ++ base)
  symbols : g.symbols = symbols

variable {base : List Scope} {symbols : SymbolTable}

/-- **One action** that leaves a scope open changes nothing under it. -/
theorem Over.apply (h : Over base symbols g) (a : Action)
    (hd : base.length < (a.apply g).scopes.depth) : Over base symbols (a.apply g) := by
  obtain ⟨code, symbols', ⟨stack⟩⟩ := g
  obtain ⟨⟨scope, above, hstack⟩, hsymbols⟩ := h
  cases hsymbols
  cases hstack
  cases a with
  | enter =>
      simp only [Action.apply, enter_eq]
      split
      · exact ⟨⟨.initial, scope :: above, rfl⟩, rfl⟩
      · exact ⟨⟨scope, above, rfl⟩, rfl⟩
  | leave =>
      cases above with
      | nil => exact absurd hd (Nat.lt_irrefl _)
      | cons next above => exact ⟨⟨next, above, rfl⟩, rfl⟩
  | declare name => exact ⟨⟨(scope.declare (.symbol name)).2, above, rfl⟩, rfl⟩
  | emit i => exact ⟨⟨scope, above, rfl⟩, rfl⟩
  | patch address target =>
      simp only [Action.apply, patch]
      cases code[address]? with
      | none => exact ⟨⟨scope, above, rfl⟩, rfl⟩
      | some i => exact ⟨⟨scope, above, rfl⟩, rfl⟩

/-- **A history** that always leaves one open does not either. -/
theorem over_after {actions : List Action} (h : Over base symbols g)
    (hd : ∀ first, first <+: actions → base.length < (g.after first).scopes.depth) :
    Over base symbols (g.after actions) := by
  induction actions generalizing g with
  | nil => exact h
  | cons a actions ih =>
      refine ih (h.apply a (hd [a] (List.prefix_append [a] actions))) fun first hfirst => ?_
      exact hd (a :: first) (List.cons_prefix_cons.mpr ⟨rfl, hfirst⟩)

/-- A scope that is opened and closed leaves the scopes and the global storage as they were. -/
theorem leave_after_balanced {inner : List Action} (henter : g.enter = .ok g')
    (hb : Balanced g' inner) :
    (g'.after inner).leave.2.scopes = g.scopes ∧ (g'.after inner).leave.2.symbols = g.symbols := by
  rw [enter_eq] at henter
  split at henter
  · cases henter
    obtain ⟨hdepth, hopen⟩ := hb
    have hover : Over g.scopes.scopes g.symbols
        { g with scopes := { scopes := .initial :: g.scopes.scopes } } :=
      ⟨⟨.initial, [], rfl⟩, rfl⟩
    obtain ⟨⟨scope, above, hscopes⟩, hsymbols⟩ := over_after hover hopen
    -- As many scopes are open as before, so just one of them stands over the old ones.
    have habove : above = [] := by
      rw [ScopeStack.depth, hscopes] at hdepth
      simpa [ScopeStack.depth] using hdepth
    subst habove
    refine ⟨?_, hsymbols⟩
    simp [leave, ScopeStack.leave, hscopes]
  · cases henter

/-! ### All histories -/

/-- **Scoping.**  Whatever was done to a generator from the start on:

* A scope cannot be opened just when sixteen are open, and then nothing changes.
* A name stands for its first declaration in the innermost scope, or else for its first declaration
  at global scope; the scopes in between do not matter.
* A declaration gets the next place of the scope it is made in.
* Once a scope that was opened is closed, every identifier stands for what it did before. -/
theorem resolve_after (actions : List Action) :
    let g := initial.after actions
    let env := environment actions
    g.scopes.depth = env.scopes.length ∧
    ((∃ e, g.enter = .error e) ↔ env.scopes.length = 16) ∧
    (env.scopes.length = 16 → Action.enter.apply g = g) ∧
    (∀ name, g.resolve (.symbol name) = env.resolve name) ∧
    (∀ name, (g.declare (.symbol name)).1 = env.declare name) ∧
    ∀ g' inner, g.enter = .ok g' → Balanced g' inner →
      ∀ id, (g'.after inner).leave.2.resolve id = g.resolve id := by
  intro g env
  have h : Represents env g := represents_after actions
  have hdepth := h.depth
  refine ⟨h.depth_eq, ?_, fun hfull => ?_, h.resolve, fun name => (h.declare name).1,
    fun g' inner henter hb id => ?_⟩
  · rw [enter_eq, h.depth_eq]
    by_cases hlt : env.scopes.length < 16
    · simp [hlt, Nat.ne_of_lt hlt]
    · simp only [if_neg hlt]
      exact ⟨fun _ => by omega, fun _ => ⟨_, rfl⟩⟩
  · simp only [Action.apply, enter_eq, h.depth_eq, hfull]
    rfl
  · obtain ⟨hscopes, hsymbols⟩ := leave_after_balanced henter hb
    rw [Generator.resolve, hscopes, hsymbols]
    rfl

/-- The scope around the innermost one is not searched, and global scope is. -/
example :
    let g := initial.after [.declare ⟨0⟩, .enter, .declare ⟨1⟩, .enter, .declare ⟨2⟩]
    g.resolve (.symbol ⟨2⟩) = some ⟨.symbol ⟨2⟩, .scope, 0⟩ ∧ g.resolve (.symbol ⟨1⟩) = none ∧
      g.resolve (.symbol ⟨0⟩) = some ⟨.symbol ⟨0⟩, .memory, 0⟩ := by
  decide

end Generator

end ScriptLang
