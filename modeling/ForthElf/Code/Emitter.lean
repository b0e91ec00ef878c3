import ForthElf.Code.Buffer
import ForthElf.Machine.Encode

/-!
# Emitting code around a cached top of stack

The data stack grows downwards in memory and `rbx` points to its uppermost cell there.  The top cell is either in memory
like the others (`spilled`) or in `rax` (`cached`).

* `Emitter` — the code so far, and where the top cell is at its end;
* `Emitter.spill`, `Emitter.fill`, `Emitter.settle` — code that moves the top cell where it is wanted;
* `Emitter.placeholder`, `Emitter.branchTo`, `Emitter.patch` — branches.

`Emit` is the monad of actions on an emitter; an action that fails leaves the code it has emitted.
-/

namespace ForthElf

open Register

/-- Where the top cell is, and how often it was moved. -/
structure StackCache where
  state : CacheState := .spilled
  spills : Nat := 0
  fills : Nat := 0
deriving DecidableEq

/-- Code under construction and the place of the top cell at its end. -/
structure Emitter where
  code : CodeBuffer := .empty
  cache : StackCache := {}
deriving DecidableEq

/-! ### Blocks that move the top cell -/

def pushCell (r : Register) : List Instruction :=
  [.aluRegImm .sub rbx 8, .store (.at rbx) r]

def dropCell : Instruction :=
  .aluRegImm .add rbx 8

/-- Moves the top cell from `rax` to memory. -/
def pushTop : List Instruction :=
  pushCell rax

/-- Moves the top cell from memory to `rax`. -/
def popTop : List Instruction :=
  [.load rax (.at rbx), dropCell]

namespace Emitter

def offset (e : Emitter) : Nat :=
  e.code.offset

def emit (e : Emitter) (i : Instruction) : Emitter :=
  { e with code := e.code.append i.encode }

def emitBlock (e : Emitter) (block : List Instruction) : Emitter :=
  block.foldl emit e

/-- Takes the top cell to be in the given place, without moving it. -/
def setState (e : Emitter) (state : CacheState) : Emitter :=
  { e with cache := { e.cache with state } }

def countSpill (e : Emitter) : Emitter :=
  { e with cache := { e.cache with spills := e.cache.spills + 1 } }

def countFill (e : Emitter) : Emitter :=
  { e with cache := { e.cache with fills := e.cache.fills + 1 } }

/-- Moves the top cell to memory if it is not there.  This also frees `rax` for a new top cell. -/
def spill (e : Emitter) : Emitter :=
  match e.cache.state with
  | .cached => ((e.emitBlock pushTop).setState .spilled).countSpill
  | .spilled => e

def fill (e : Emitter) : Emitter :=
  match e.cache.state with
  | .cached => e
  | .spilled => ((e.emitBlock popTop).setState .cached).countFill

/-- Moves the top cell to the given place. -/
def settle (e : Emitter) : CacheState → Emitter
  | .cached => e.fill
  | .spilled => e.spill

/-- Pushes a constant as the new top cell. -/
def literal (e : Emitter) (value : BitVec 64) : Emitter :=
  (e.spill.emit (.movRegImm rax value)).setState .cached

/-- The place of the displacement of a branch that is emitted next. -/
def branchSite (e : Emitter) (kind : Branch) : Nat :=
  e.offset + kind.opcode.length

/-- Adds a branch whose target is not known yet. -/
def placeholder (e : Emitter) (kind : Branch) : Emitter :=
  e.emit (.branch kind 0)

/-! ### Small facts -/

@[simp] theorem emitBlock_nil (e : Emitter) : e.emitBlock [] = e := rfl

@[simp] theorem emitBlock_cons (e : Emitter) (i : Instruction) (block : List Instruction) :
    e.emitBlock (i :: block) = (e.emit i).emitBlock block := rfl

theorem emitBlock_eq (e : Emitter) (block : List Instruction) :
    e.emitBlock block = { e with code := e.code.append (assemble block) } := by
  induction block generalizing e with
  | nil => simp
  | cons i block ih => simp [ih, emit, CodeBuffer.append_append]

@[simp] theorem state_setState (e : Emitter) (state : CacheState) :
    (e.setState state).cache.state = state := rfl

@[simp] theorem code_setState (e : Emitter) (state : CacheState) :
    (e.setState state).code = e.code := rfl

@[simp] theorem state_spill (e : Emitter) : e.spill.cache.state = .spilled := by
  unfold spill
  split
  · rfl
  · assumption

@[simp] theorem state_fill (e : Emitter) : e.fill.cache.state = .cached := by
  unfold fill
  split
  · assumption
  · rfl

@[simp] theorem state_settle (e : Emitter) (state : CacheState) :
    (e.settle state).cache.state = state := by
  cases state <;> simp [settle]

end Emitter

/-! ### Actions -/

/-- Actions on an emitter that can fail. -/
abbrev Emit := EStateM Error Emitter

namespace Emitter

/-- Makes the branch field at `site` lead to `target`. -/
def patch (site target : Nat) : Emit Unit := fun e =>
  match CodeBuffer.patchRel32 site target e.code with
  | .ok _ code => .ok () { e with code }
  | .error error code => .error error { e with code }

/-- Adds a branch to a known target.  The branch stays without a target if it is out of reach. -/
def branchTo (kind : Branch) (target : Nat) : Emit Unit := do
  let site := (← get).branchSite kind
  modify (·.placeholder kind)
  patch site target

end Emitter

end ForthElf
