import ForthElf.Code.Emitter

/-!
# Fixed pieces of every program

* `entryBlock stackTop` — sets up an empty data stack;
* `exitBlock status` — ends the process;
* `writeCell` — writes the low byte of the uppermost cell in memory to the standard output;
* `printNumber` — a routine that pops a cell and prints it as a signed decimal number and a space.
-/

namespace ForthElf

open Register

/-- The displacement over a block that directly follows a branch. -/
def skipping (block : List Instruction) : BitVec 32 :=
  BitVec.ofNat 32 (codeSize block)

/-- Points the data stack to its upper end. -/
def entryBlock (stackTop : UInt64) : List Instruction :=
  [.movRegImm rbx stackTop.toBitVec]

/-- Ends the process with a status. -/
def exitBlock (status : BitVec 32) : List Instruction :=
  [.movReg32Imm rax 60, .movReg32Imm rdi status, .syscall]

/-- Writes one byte, the lowest of the uppermost cell in memory. -/
def writeCell : List Instruction :=
  [.movReg32Imm rax 1, .movReg32Imm rdi 1, .movRegReg rsi rbx, .movReg32Imm rdx 1, .syscall]

namespace PrintNumber

/-- Takes the number from the data stack, keeps it in `r8`, and makes room for the text. -/
def start : List Instruction :=
  popTop ++ [.movRegReg r8 rax, .aluRegImm .sub rsp 32, .lea rsi ⟨rsp, 32⟩]

/-- Puts a character in front of the text. -/
def putChar (c : Char) : List Instruction :=
  [.decReg rsi, .movReg32Imm rcx (BitVec.ofNat 32 c.toNat), .storeByte (.at rsi) rcx]

/-- Makes the number in `rax` positive. -/
def magnitude : List Instruction :=
  [.unary .neg rax]

/-- Splits the last digit from `rax` and puts it in front of the text. -/
def putDigit : List Instruction :=
  [.movReg32Imm rdx 0, .unary .div rcx, .aluRegImm .add rdx 48, .decReg rsi,
   .storeByte (.at rsi) rdx, .test rax rax]

/-- The displacement from behind the conditional jump after `putDigit` back to its start. -/
def nextDigit : BitVec 32 :=
  BitVec.ofInt 32 (-(codeSize (putDigit ++ [.branch (.jumpIf .notEqual) 0]) : Int))

def write : List Instruction :=
  [.lea rdx ⟨rsp, 32⟩, .aluRegReg .sub rdx rsi, .movReg32Imm rax 1, .movReg32Imm rdi 1, .syscall]

def finish : List Instruction :=
  [.aluRegImm .add rsp 32, .ret]

end PrintNumber

open PrintNumber in
/-- Pops a cell and prints it: the text is built from its end in 32 bytes on the return stack. -/
def printNumber : List Instruction :=
  start ++ putChar ' ' ++
    [.test rax rax, .branch (.jumpIf .notSign) (skipping magnitude)] ++ magnitude ++
    [.movReg32Imm rcx 10] ++ putDigit ++ [.branch (.jumpIf .notEqual) nextDigit] ++
    [.test r8 r8, .branch (.jumpIf .notSign) (skipping (putChar '-'))] ++ putChar '-' ++
    write ++ finish

end ForthElf
