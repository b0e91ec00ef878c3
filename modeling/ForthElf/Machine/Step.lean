import ForthElf.Machine.Decode
import ForthElf.Machine.State

/-!
# Running machine code

* `Machine.execute` — what one instruction does;
* `Machine.step` — fetches, decodes and executes the next instruction of loaded code;
* `Machine.run` — up to a number of steps.

Flags that an instruction leaves undefined keep their value.  A system call leaves values in `rax`, `rcx` and `r11`
that the program cannot foresee; a `Kernel` says which.
-/

namespace ForthElf

open Register

/-- What a process does next. -/
inductive Next where
  | running (m : Machine)
  | exited (status : BitVec 32) (m : Machine)
  /-- The instruction cannot be executed: an unknown one, a failed division, an unknown system call. -/
  | fault

/-- The values that a system call leaves in registers. -/
structure Kernel where
  rax : Machine → BitVec 64
  rcx : Machine → BitVec 64
  r11 : Machine → BitVec 64

/-- Result and overflow of an operation with two operands. -/
def AluOp.eval (op : AluOp) (a b : BitVec 64) : BitVec 64 × Bool :=
  match op with
  | .add => (a + b, a.saddOverflow b)
  | .or => (a ||| b, false)
  | .and => (a &&& b, false)
  | .sub => (a - b, a.ssubOverflow b)
  | .xor => (a ^^^ b, false)
  | .cmp => (a - b, a.ssubOverflow b)

namespace Machine

/-- Sets the flags for an operation and gives its result to `keep`, unless it only compares. -/
def alu (m : Machine) (op : AluOp) (a b : BitVec 64) (keep : Machine → BitVec 64 → Machine) :
    Machine :=
  let (result, overflow) := op.eval a b
  let m := m.setFlags result overflow
  if op = .cmp then m else keep m result

/-- Quotient and remainder of `rdx` and `rax` together, without sign. -/
def divide (m : Machine) (divisor : BitVec 64) : Next :=
  let dividend := (m.reg rdx).toNat * 0x10000000000000000 + (m.reg rax).toNat
  let quotient := dividend / divisor.toNat
  if divisor = 0 ∨ 0x10000000000000000 ≤ quotient then .fault
  else
    .running ((m.setReg rax (BitVec.ofNat 64 quotient)).setReg rdx
      (BitVec.ofNat 64 (dividend % divisor.toNat)))

/-- Quotient and remainder of `rdx` and `rax` together, with sign; the quotient is cut towards zero. -/
def divideSigned (m : Machine) (divisor : BitVec 64) : Next :=
  let dividend := (m.reg rdx).toInt * 0x10000000000000000 + (m.reg rax).toNat
  let quotient := dividend.tdiv divisor.toInt
  if divisor = 0 ∨ quotient < -0x8000000000000000 ∨ 0x8000000000000000 ≤ quotient then .fault
  else
    .running ((m.setReg rax (BitVec.ofInt 64 quotient)).setReg rdx
      (BitVec.ofInt 64 (dividend.tmod divisor.toInt)))

def unary (m : Machine) (r : Register) : UnaryOp → Next
  | .not => .running (m.setReg r (~~~ m.reg r))
  | .neg =>
    let result := -m.reg r
    .running ((m.setFlags result (m.reg r == BitVec.intMin 64)).setReg r result)
  | .div => m.divide (m.reg r)
  | .idiv => m.divideSigned (m.reg r)

/-- A product with sign; of the flags only the overflow is defined. -/
def multiply (m : Machine) (r : Register) (factor : BitVec 64) : Machine :=
  let flags := { m.flags with overflow := (m.reg r).smulOverflow factor }
  { m.setReg r (m.reg r * factor) with flags }

/-- A shift by the low six bits of `rcx`. -/
def shift (m : Machine) (r : Register) (op : ShiftOp) : Machine :=
  let amount := (m.reg rcx).toNat % 64
  let result := match op with
    | .left => m.reg r <<< amount
    | .right => m.reg r >>> amount
  -- The overflow of a longer shift is undefined.
  let overflow := if amount = 1 then (m.reg r).msb != result.msb else m.flags.overflow
  if amount = 0 then m else (m.setFlags result overflow).setReg r result

def setLowByte (m : Machine) (r : Register) (byte : BitVec 8) : Machine :=
  m.setReg r ((m.reg r >>> 8) <<< 8 ||| byte.setWidth 64)

/-- A branch, relative to the next instruction. -/
def branch (m : Machine) (disp : BitVec 32) : Branch → Machine
  | .jump => m.jump (m.ip + disp.signExtend 64)
  | .jumpIf condition =>
    if condition.holds m.flags then m.jump (m.ip + disp.signExtend 64) else m
  | .call => (m.pushCell m.ip).jump (m.ip + disp.signExtend 64)

/-- A system call: number 1 writes to the standard output, number 60 ends the process. -/
def systemCall (kernel : Kernel) (m : Machine) : Next :=
  if m.reg rax = 1 ∧ m.reg rdi = 1 then
    let written := { m with output := m.output ++ m.mem.read (m.reg rsi) (m.reg rdx).toNat }
    .running (((written.setReg rax (kernel.rax m)).setReg rcx (kernel.rcx m)).setReg r11
      (kernel.r11 m))
  else if m.reg rax = 60 then .exited ((m.reg rdi).setWidth 32) m
  else .fault

/-- What an instruction does; `m.ip` is already the address of the instruction behind it. -/
def execute (kernel : Kernel) (m : Machine) : Instruction → Next
  | .movRegReg dst src => .running (m.setReg dst (m.reg src))
  | .movRegImm dst value => .running (m.setReg dst value)
  | .movReg32Imm dst value => .running (m.setReg dst (value.setWidth 64))
  | .load dst src => .running (m.setReg dst (m.cellAt src))
  | .store dst src => .running (m.setCellAt dst (m.reg src))
  | .storeImm dst value => .running (m.setCellAt dst (value.signExtend 64))
  | .storeByte dst src =>
    .running { m with mem := m.mem.set (m.addressOf dst) (UInt8.ofNat (m.reg src).toNat) }
  | .loadByte dst src =>
    .running (m.setReg dst (BitVec.ofNat 64 (m.mem (m.addressOf src)).toNat))
  | .zeroExtendByte dst src => .running (m.setReg dst (((m.reg src).setWidth 8).setWidth 64))
  | .lea dst src => .running (m.setReg dst (m.addressOf src))
  | .push src => .running (m.pushCell (m.reg src))
  | .pop dst => .running (m.dropCell.setReg dst m.topCell)
  | .aluRegReg op dst src =>
    .running (m.alu op (m.reg dst) (m.reg src) fun m result => m.setReg dst result)
  | .aluRegImm op dst value =>
    .running (m.alu op (m.reg dst) (value.signExtend 64) fun m result => m.setReg dst result)
  | .aluMemReg op dst src =>
    .running (m.alu op (m.cellAt dst) (m.reg src) fun m result => m.setCellAt dst result)
  | .aluRegMem op dst src =>
    .running (m.alu op (m.reg dst) (m.cellAt src) fun m result => m.setReg dst result)
  | .incMem dst =>
    .running (m.alu .add (m.cellAt dst) 1 fun m result => m.setCellAt dst result)
  | .decReg dst => .running (m.alu .sub (m.reg dst) 1 fun m result => m.setReg dst result)
  | .imul dst src => .running (m.multiply dst (m.reg src))
  | .cqo =>
    .running (m.setReg rdx (if (m.reg rax).msb then BitVec.allOnes 64 else 0))
  | .unary op dst => m.unary dst op
  | .shift op dst => .running (m.shift dst op)
  | .test left right => .running (m.setFlags (m.reg left &&& m.reg right) false)
  | .setIf condition dst =>
    .running (m.setLowByte dst (if condition.holds m.flags then 1 else 0))
  | .moveIf condition dst src =>
    .running (if condition.holds m.flags then m.setReg dst (m.reg src) else m)
  | .branch kind disp => .running (m.branch disp kind)
  | .ret => .running (m.dropCell.jump m.topCell)
  | .syscall => m.systemCall kernel

end Machine

/-- Code at its place in memory. -/
structure LoadedCode where
  base : BitVec 64
  bytes : List UInt8

/-- The instruction at an address and the address behind it. -/
def LoadedCode.fetch? (code : LoadedCode) (address : BitVec 64) :
    Option (Instruction × BitVec 64) :=
  let bytes := window (code.bytes.drop (address - code.base).toNat)
  match decode bytes with
  | some (i, rest) => some (i, address + BitVec.ofNat 64 (bytes.length - rest.length))
  | none => none

namespace Machine

/-- Executes the next instruction. -/
def step (kernel : Kernel) (code : LoadedCode) (m : Machine) : Next :=
  match code.fetch? m.ip with
  | some (i, next) => (m.jump next).execute kernel i
  | none => .fault

/-- Runs up to a number of steps. -/
def run (kernel : Kernel) (code : LoadedCode) : Nat → Machine → Next
  | 0, m => .running m
  | n + 1, m =>
    match m.step kernel code with
    | .running m => run kernel code n m
    | stopped => stopped

@[simp] theorem run_zero (kernel : Kernel) (code : LoadedCode) (m : Machine) :
    m.run kernel code 0 = .running m := rfl

theorem run_add {kernel : Kernel} {code : LoadedCode} {a : Nat} {m m' : Machine}
    (h : m.run kernel code a = .running m') (b : Nat) :
    m.run kernel code (a + b) = m'.run kernel code b := by
  induction a generalizing m with
  | zero =>
    cases h
    rw [Nat.zero_add]
  | succ a ih =>
    rw [Nat.succ_add]
    simp only [run] at h ⊢
    cases hs : m.step kernel code with
    | running next =>
      rw [hs] at h
      exact ih h
    | exited status next =>
      rw [hs] at h
      cases h
    | fault =>
      rw [hs] at h
      cases h

end Machine

end ForthElf
