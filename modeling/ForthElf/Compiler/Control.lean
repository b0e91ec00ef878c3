import ForthElf.Compiler.State

/-!
# Control words

* conditionals: `if`, `else`, `then`;
* loops with a test: `begin`, `until`, `again`, `while`, `repeat`;
* counted loops: `do`, `loop`, `+loop`, and inside them `i`, `j`, `unloop`.

The index of a counted loop is the uppermost cell of the return stack, its limit the one below.  At every place where
two paths meet the top cell of the data stack is in memory.
-/

namespace ForthElf.Compiler

open Register

/-! ### Meeting paths -/

/-- Takes a flag from the data stack and tests it; what is left of the stack is in memory. -/
def testFlag : Compile Unit :=
  emitting fun e => (e.fill.emit (.test rax rax)).setState .spilled

/-- Fails unless the top cell is where the other path to this place left it. -/
def checkMerge (expected : CacheState) (pos : Position) : Compile Unit := do
  let found := (← get).cache.state
  if found ≠ expected then throw (.cacheMismatch pos expected found)

/-! ### Conditionals -/

/-- `if`: jumps to `else` or `then` unless the flag is set. -/
def compileIf (pos : Position) : Compile Unit := do
  beginCode
  testFlag
  let site ← placeholder (.jumpIf .equal)
  pushFrame (.«if» site) pos (← get).cache.state

/-- `else`: the first arm jumps to `then`, and the jump of the `if` leads here. -/
def compileElse (pos : Position) : Compile Unit := do
  let (site, frame) ← popFor "else" pos fun
    | .«if» site => some site
    | _ => none
  emitting (·.spill)
  let state := (← get).cache.state
  let skip ← placeholder .jump
  patchHere site
  emitting (·.setState frame.state)
  pushFrame (.«else» skip) pos state

/-- `then`: the open jump leads here. -/
def compileThen (pos : Position) : Compile Unit := do
  let (site, frame) ← popFor "then" pos fun
    | .«if» site => some site
    | .«else» site => some site
    | _ => none
  emitting (·.spill)
  checkMerge frame.state pos
  patchHere site

/-! ### Loops with a test -/

/-- `begin`: the place to which the loop goes back. -/
def compileBegin (pos : Position) : Compile Unit := do
  beginCode
  emitting (·.spill)
  let target ← here
  pushFrame (.«begin» target) pos (← get).cache.state

/-- Takes an open `begin`: its target and the place of the top cell there. -/
def popBegin (word : String) (pos : Position) : Compile (Nat × CacheState) := do
  let (target, frame) ← popFor word pos fun
    | .«begin» target => some target
    | _ => none
  return (target, frame.state)

/-- `until`: goes back unless the flag is set. -/
def compileUntil (pos : Position) : Compile Unit := do
  let (target, state) ← popBegin "until" pos
  testFlag
  checkMerge state pos
  emitter (Emitter.branchTo (.jumpIf .equal) target)

/-- `again`: goes back. -/
def compileAgain (pos : Position) : Compile Unit := do
  let (target, state) ← popBegin "again" pos
  emitting (·.spill)
  checkMerge state pos
  emitter (Emitter.branchTo .jump target)

/-- `while`: leaves the loop unless the flag is set. -/
def compileWhile (pos : Position) : Compile Unit := do
  let (target, state) ← popBegin "while" pos
  testFlag
  let site ← placeholder (.jumpIf .equal)
  pushFrame (.«while» target site) pos state

/-- `repeat`: goes back; the jump of the `while` leads behind it. -/
def compileRepeat (pos : Position) : Compile Unit := do
  let ((target, site), frame) ← popFor "repeat" pos fun
    | .«while» target site => some (target, site)
    | _ => none
  emitting (·.spill)
  checkMerge frame.state pos
  emitter (Emitter.branchTo .jump target)
  patchHere site

/-! ### Counted loops -/

def loopIndex : Mem := .at rsp

def loopLimit : Mem := ⟨rsp, 8⟩

def dropLoop : Instruction :=
  .aluRegImm .add rsp 16

/-- Moves the limit and, above it, the start from the data stack to the return stack; the start is in `rax`. -/
def enterLoop : List Instruction :=
  [.load rcx (.at rbx), dropCell, .push rcx, .push rax]

/-- Adds one to the index and compares it with the limit. -/
def stepByOne : List Instruction :=
  [.incMem loopIndex, .load rax loopIndex, .aluRegMem .cmp rax loopLimit]

/-- Adds the step in `rax` to the index.  The distance from limit to index, offset by the smallest cell, overflows
exactly if the index crosses the limit. -/
def stepByTop : List Instruction :=
  [.load rcx loopIndex, .aluRegMem .sub rcx loopLimit, .movRegImm rdx (BitVec.intMin 64),
   .aluRegReg .add rcx rdx, .aluMemReg .add loopIndex rax, .aluRegReg .add rcx rax]

/-- Compares the distance with that of an index on the limit. -/
def compareLimit : List Instruction :=
  [.aluRegReg .cmp rcx rdx]

/-- `do`: takes limit and start. -/
def compileDo (pos : Position) : Compile Unit := do
  beginCode
  emitting fun e => (e.fill.emitBlock enterLoop).setState .spilled
  let body ← here
  pushFrame (.«do» body) pos (← get).cache.state

/-- Takes an open `do`: its body and the place of the top cell there. -/
def popDo (word : String) (pos : Position) : Compile (Nat × CacheState) := do
  let (body, frame) ← popFor word pos fun
    | .«do» body => some body
    | _ => none
  return (body, frame.state)

/-- `loop`: goes back while the index, increased by one, is below the limit. -/
def compileLoop (pos : Position) : Compile Unit := do
  let (body, state) ← popDo "loop" pos
  emitting (·.spill)
  checkMerge state pos
  emitBlock stepByOne
  emitter (Emitter.branchTo (.jumpIf .less) body)
  emitBlock [dropLoop]

/-- `+loop`: adds the top cell to the index and goes back unless the index crosses or meets the limit. -/
def compilePlusLoop (pos : Position) : Compile Unit := do
  let (body, state) ← popDo "+loop" pos
  emitting fun e => e.fill.setState .spilled
  checkMerge state pos
  emitBlock stepByTop
  let crossed ← placeholder (.jumpIf .overflow)
  emitBlock compareLimit
  emitter (Emitter.branchTo (.jumpIf .notEqual) body)
  patchHere crossed
  emitBlock [dropLoop]

/-- `i` and `j`: pushes the index of the loop that is `depth` levels out. -/
def compileLoopIndex (word : String) (depth : Nat) (pos : Position) : Compile Unit := do
  let needed := depth + 1
  if (← get).control.openLoops < needed then throw (.loopWordOutsideLoop word needed pos)
  emitting (·.block .spilled [.load rax ⟨rsp, BitVec.ofNat 32 (16 * depth)⟩] .cached)

/-- `unloop`: drops the parameters of the innermost loop ahead of an `exit`. -/
def compileUnloop (pos : Position) : Compile Unit := do
  let s ← get
  let needed := s.unlooped + 1
  if s.control.openLoops < needed then throw (.loopWordOutsideLoop "unloop" needed pos)
  emitBlock [dropLoop]
  modify fun s => { s with unlooped := s.unlooped + 1 }

end ForthElf.Compiler
