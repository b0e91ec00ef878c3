import ForthElf.Word.Primitive
import ForthElf.Word.Routine

/-!
# Machine code of the built-in words

Nearly every built-in word is a fixed block of instructions that expects the top cell in one place and leaves it in
one.

* `Recipe` — how a word is compiled, `Primitive.recipe` the recipe of each;
* `Emitter.primitive printNumber p` — emits the word `p`, where `printNumber` is the offset of the routine of that name.
-/

namespace ForthElf

open Register

/-- How a built-in word is compiled. -/
inductive Recipe where
  /-- A block that runs with the top cell in the place `entry` and leaves it in the place `exit`. -/
  | block (entry : CacheState) (body : List Instruction) (exit : CacheState)
  /-- Forgets the top cell wherever it is. -/
  | discard
  /-- Calls the routine that prints a number. -/
  | print
deriving DecidableEq

namespace Recipe

/-- A word on the top cell that leaves a top cell. -/
def onTop (body : List Instruction) : Recipe :=
  .block .cached body .cached

/-- Moves the two upper cells to `rax` and, the upper one, to `rcx`. -/
def popOperands : List Instruction :=
  [.movRegReg rcx rax, .load rax (.at rbx), dropCell]

/-- A word on the two upper cells that leaves a top cell. -/
def onTwo (body : List Instruction) : Recipe :=
  .onTop (popOperands ++ body)

/-- Turns a condition into a cell: all bits set or none. -/
def flag (condition : Condition) : List Instruction :=
  [.setIf condition rax, .zeroExtendByte rax rax, .unary .neg rax]

def compare (condition : Condition) : Recipe :=
  .onTwo (.aluRegReg .cmp rax rcx :: flag condition)

def compareZero (condition : Condition) : Recipe :=
  .onTop (.test rax rax :: flag condition)

/-- A word on an address and a cell below it, which `store` uses from `rax` and `rcx`. -/
def atAddress (store : Instruction) : Recipe :=
  .block .cached [.load rcx (.at rbx), store, dropCell] .spilled

/-- The cell below the uppermost one in memory. -/
def second : Mem := ⟨rbx, 8⟩

end Recipe

open Recipe

def Primitive.recipe : Primitive → Recipe
  | .dup => .onTop pushTop
  | .drop => .discard
  | .swap => .onTop [.load rcx (.at rbx), .store (.at rbx) rax, .movRegReg rax rcx]
  | .over => .onTop ([.load rcx (.at rbx)] ++ pushTop ++ [.movRegReg rax rcx])
  | .nip => .onTop [dropCell]
  | .rot =>
    .onTop [.load rcx second, .load rdx (.at rbx), .store second rdx, .store (.at rbx) rax,
      .movRegReg rax rcx]
  | .minusRot =>
    .onTop [.load rcx (.at rbx), .load rdx second, .store second rax, .store (.at rbx) rdx,
      .movRegReg rax rcx]
  | .tuck => .onTop ([.load rcx (.at rbx), .store (.at rbx) rax] ++ pushCell rcx)
  | .twoDup => .onTop ([.load rcx (.at rbx)] ++ pushTop ++ pushCell rcx)
  | .questionDup =>
    .onTop ([.test rax rax, .branch (.jumpIf .equal) (skipping pushTop)] ++ pushTop)
  | .add => .onTwo [.aluRegReg .add rax rcx]
  | .sub => .onTwo [.aluRegReg .sub rax rcx]
  | .mul => .onTwo [.imul rax rcx]
  | .div => .onTwo [.cqo, .unary .idiv rcx]
  | .mod => .onTwo [.cqo, .unary .idiv rcx, .movRegReg rax rdx]
  | .negate => .onTop [.unary .neg rax]
  | .onePlus => .onTop [.aluRegImm .add rax 1]
  | .oneMinus => .onTop [.aluRegImm .sub rax 1]
  | .abs => .onTop [.movRegReg rcx rax, .unary .neg rcx, .moveIf .notSign rax rcx]
  | .max => .onTwo [.aluRegReg .cmp rax rcx, .moveIf .less rax rcx]
  | .min => .onTwo [.aluRegReg .cmp rax rcx, .moveIf .greater rax rcx]
  | .and => .onTwo [.aluRegReg .and rax rcx]
  | .or => .onTwo [.aluRegReg .or rax rcx]
  | .xor => .onTwo [.aluRegReg .xor rax rcx]
  | .invert => .onTop [.unary .not rax]
  | .leftShift => .onTwo [.shift .left rax]
  | .rightShift => .onTwo [.shift .right rax]
  | .equal => compare .equal
  | .notEqual => compare .notEqual
  | .less => compare .less
  | .greater => compare .greater
  | .zeroEqual => compareZero .equal
  | .zeroLess => compareZero .sign
  | .zeroGreater => compareZero .greater
  | .fetch => .onTop [.load rax (.at rax)]
  | .store => .atAddress (.store (.at rax) rcx)
  | .fetchByte => .onTop [.loadByte rax (.at rax)]
  | .storeByte => .atAddress (.storeByte (.at rax) rcx)
  | .plusStore => .atAddress (.aluMemReg .add (.at rax) rcx)
  | .toReturn => .block .cached [.push rax] .spilled
  | .fromReturn => .block .spilled [.pop rax] .cached
  | .returnFetch => .block .spilled [.load rax (.at rsp)] .cached
  | .emit => .block .spilled (writeCell ++ [dropCell]) .spilled
  | .newline =>
    .block .spilled
      ([.aluRegImm .sub rbx 8, .storeImm (.at rbx) 10] ++ writeCell ++ [dropCell]) .spilled
  | .dot => .print
  | .bye => .block .spilled (exitBlock 0) .spilled

/-- Emits a block between the two places of the top cell. -/
def Emitter.block (e : Emitter) (entry : CacheState) (body : List Instruction) (exit : CacheState) :
    Emitter :=
  ((e.settle entry).emitBlock body).setState exit

/-- Forgets the top cell. -/
def Emitter.discard (e : Emitter) : Emitter :=
  match e.cache.state with
  | .cached => e.setState .spilled
  | .spilled => e.emit dropCell

def Emitter.follow (printNumber : Nat) : Recipe → Emit Unit
  | .block entry body exit => modify (·.block entry body exit)
  | .discard => modify (·.discard)
  | .print => do
    modify (·.spill)
    Emitter.branchTo .call printNumber

def Emitter.primitive (printNumber : Nat) (p : Primitive) : Emit Unit :=
  Emitter.follow printNumber p.recipe

end ForthElf
