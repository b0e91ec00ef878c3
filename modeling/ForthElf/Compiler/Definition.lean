import ForthElf.Compiler.State
import ForthElf.Source.Token

/-!
# Definitions

* `:` and `;` — a definition is called by its name once it is complete;
* `variable` — a name for a fresh cell above the data stack;
* `exit` and `recurse` — return from, and call, the definition that is being compiled.
-/

namespace ForthElf.Compiler

open Register

/-- Tells of an older meaning of a name that is about to be defined. -/
def noteOlderMeaning (name : Token) : Compile Unit := do
  match (← get).dictionary.find? name.text with
  | some previous => note (.redefined name.pos name.text previous.definedAt)
  | none =>
    if (Primitive.lookup? name.text).isSome then note (.shadowed name.pos name.text)

/-- Leads waiting calls to the definition that starts at `target`. -/
def resolveCalls (name : String) (target : Nat) : List Nat → Compile Unit
  | [] => pure ()
  | site :: sites => do
    patch site target
    note (.callResolved site name target)
    resolveCalls name target sites

/-- The jump around a definition, if the main program has started. -/
def skipDefinition : Compile (Option Nat) := do
  if (← get).entry.isSome then
    emitting (·.spill)
    return some (← placeholder .jump)
  else return none

/-- `:` — opens the definition of `name`; `pos` is the place of the colon. -/
def beginDefinition (name : Token) (pos : Position) : Compile Unit := do
  let s ← get
  if s.current.isSome ∨ s.control ≠ [] then throw (.nestedDefinition pos)
  let skipSite ← skipDefinition
  emitting (·.setState .spilled)
  noteOlderMeaning name
  let offset ← here
  let number := (← get).dictionary.size
  modify fun s => { s with dictionary := s.dictionary.define ⟨name.text, .code offset, name.pos, true⟩ }
  let sites := (← get).forward.sitesOf name.text
  modify fun s => { s with forward := s.forward.resolve name.text }
  resolveCalls name.text offset sites
  note (.definitionStarted name.text offset)
  modify ({ · with
    returnCells := 0
    unlooped := 0
    current := some ⟨name.text, number, offset, pos, skipSite⟩ })

/-- `;` — closes the open definition. -/
def endDefinition (pos : Position) : Compile Unit := do
  let s ← get
  match s.current with
  | none => throw (.outsideDefinition ";" pos)
  | some definition =>
    require s.control.ensureClosed
    if 0 < s.returnCells then note (.cellsLeft pos definition.name s.returnCells)
    modify ({ · with returnCells := 0, unlooped := 0 })
    emitting fun e => e.spill.emit .ret
    match definition.skipSite with
    | some site => patch site (← here)
    | none => pure ()
    modify fun s =>
      { s with dictionary := s.dictionary.reveal definition.number, current := none }
    count (·.countWord)
    note (.definitionDone definition.name ((← here) - definition.offset))

/-- `variable` — gives a fresh cell a name; `pos` is the place of the word `variable`. -/
def defineVariable (name : Token) (pos : Position) : Compile Unit := do
  let s ← get
  let address := s.options.stackTop + 8 * UInt64.ofNat s.cells
  if (s.dictionary.find? name.text).isSome then note (.variableRedefined name.pos name.text)
  modify fun s =>
    { s with
      cells := s.cells + 1
      dictionary := s.dictionary.define ⟨name.text, .cell address, pos, false⟩ }
  count (·.countVariable)
  note (.variablePlaced name.text address)

/-- The cells of the return stack that an `exit` has to drop: two for each loop whose parameters are still there, and
those moved there. -/
def cellsToDrop (s : Compiler) : Nat :=
  2 * (s.control.openLoops - s.unlooped) + s.returnCells

def dropReturnCells (cells : Nat) : List Instruction :=
  if 0 < cells then [.aluRegImm .add rsp (BitVec.ofNat 32 (8 * cells))] else []

/-- `exit` — returns from the open definition. -/
def compileExit (token : Token) : Compile Unit := do
  let s ← get
  if s.current.isNone then throw (.outsideDefinition token.text token.pos)
  emitting (·.spill)
  emitBlock (dropReturnCells s.cellsToDrop)
  modify ({ · with unlooped := 0 })
  emitBlock [.ret]

/-- `recurse` — calls the open definition. -/
def compileRecurse (token : Token) : Compile Unit := do
  match (← get).current with
  | none => throw (.outsideDefinition token.text token.pos)
  | some definition =>
    emitting (·.spill)
    emitter (Emitter.branchTo .call definition.offset)
    count (·.countCall)

end ForthElf.Compiler
