import ForthElf.Compiler.ControlStack
import ForthElf.Compiler.Dictionary
import ForthElf.Compiler.Event
import ForthElf.Compiler.ForwardCalls
import ForthElf.Compiler.Statistics
import ForthElf.Image.Options
import ForthElf.Word.Recipe

/-!
# The compiler's state

Tokens are compiled one after the other into one stream of code.  Definitions and the main program share it: the main
program starts at the first token outside a definition, and jumps over every later definition.

* `Compiler` — all that the compiler remembers between two tokens;
* `Compile` — actions on it; an action that fails leaves the state it has reached;
* `Compiler.start` — the state before the first token.
-/

namespace ForthElf

/-- The definition that is being compiled. -/
structure OpenDefinition where
  name : String
  /-- The number of its dictionary entry. -/
  number : Nat
  offset : Nat
  /-- The place of its colon. -/
  pos : Position
  /-- The branch field of the jump that takes the main program around the definition. -/
  skipSite : Option Nat
deriving DecidableEq

/-- The compiler between two tokens. -/
structure Compiler extends Emitter where
  options : Options
  control : ControlStack := []
  dictionary : Dictionary := {}
  forward : ForwardCalls := {}
  /-- The place of the routine that prints a number. -/
  printNumber : Nat := 0
  /-- The start of the main program. -/
  entry : Option Nat := none
  current : Option OpenDefinition := none
  /-- The cells moved to the return stack and not back, in token order. -/
  returnCells : Nat := 0
  /-- The loops whose parameters were dropped ahead of an `exit`. -/
  unlooped : Nat := 0
  /-- The number of variable cells. -/
  cells : Nat := 0
  warnings : Array Warning := #[]
  stats : Statistics := {}
  log : Array Event := #[]

abbrev Compile := EStateM Error Compiler

namespace Compiler

/-! ### Basic actions -/

def emitter {α : Type} (action : Emit α) : Compile α := fun s =>
  match action s.toEmitter with
  | .ok a e => .ok a { s with toEmitter := e }
  | .error error e => .error error { s with toEmitter := e }

def emitting (change : Emitter → Emitter) : Compile Unit :=
  modify fun s => { s with toEmitter := change s.toEmitter }

def emitBlock (block : List Instruction) : Compile Unit :=
  emitting (·.emitBlock block)

def note (event : Event) : Compile Unit :=
  modify fun s => { s with log := s.log.push event }

def count (change : Statistics → Statistics) : Compile Unit :=
  modify fun s => { s with stats := change s.stats }

/-- Goes on with the result, or fails with the error. -/
def require {α : Type} (result : Except Error α) : Compile α :=
  match result with
  | .ok a => pure a
  | .error error => throw error

def here : Compile Nat := do
  return (← get).offset

/-- Emits a branch whose target is not known yet and gives its field. -/
def placeholder (kind : Branch) : Compile Nat := do
  let site := (← get).branchSite kind
  emitting (·.placeholder kind)
  return site

/-- Makes a branch field lead to a target and counts it. -/
def patch (site target : Nat) : Compile Unit := do
  emitter (Emitter.patch site target)
  count (·.countFixup)

/-- Makes a branch field lead to the next instruction. -/
def patchHere (site : Nat) : Compile Unit := do
  let target ← here
  patch site target
  note (.branchResolved site target)

def popFor {α : Type} (word : String) (pos : Position) (select : Construct → Option α) :
    Compile (α × Frame) := do
  let (taken, rest) ← require ((← get).control.popFor word pos select)
  modify ({ · with control := rest })
  return taken

def pushFrame (construct : Construct) (pos : Position) (state : CacheState) : Compile Unit :=
  modify fun s => { s with control := ⟨construct, pos, state⟩ :: s.control }

/-- Starts the main program before its first token. -/
def beginCode : Compile Unit := do
  let s ← get
  if s.current.isNone ∧ s.entry.isNone then
    emitting fun e => (e.emitBlock (entryBlock s.options.stackTop)).setState .spilled
    modify ({ · with entry := some s.offset })
    note (.entryPlaced s.offset)

/-! ### The start -/

/-- The state before the first token: the number printing routine and nothing else. -/
def initial (options : Options) : Compiler :=
  { options
    toEmitter := Emitter.emitBlock {} ForthElf.printNumber
    printNumber := 0
    log := #[.printNumberPlaced 0] }

/-- The state before the first token, unless the options are faulty. -/
def start (options : Options) : Except Error Compiler := do
  options.validate
  return initial options

end Compiler

end ForthElf
