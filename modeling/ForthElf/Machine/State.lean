import ForthElf.Machine.Bytes
import ForthElf.Machine.Instruction

/-!
# The processor's state

* `Memory` — a byte at every address, `Memory.read` and `Memory.write` for runs of bytes;
* `Machine` — registers, flags, memory, the address of the next instruction, and what was written so far;
* `Condition.holds` — when a condition is met.

Only the flags that emitted code looks at are kept.
-/

namespace ForthElf

/-- A byte at every address. -/
abbrev Memory := BitVec 64 → UInt8

namespace Memory

/-- The `n` bytes from an address on. -/
def read (mem : Memory) (address : BitVec 64) : Nat → List UInt8
  | 0 => []
  | n + 1 => mem address :: read mem (address + 1) n

def set (mem : Memory) (address : BitVec 64) (byte : UInt8) : Memory :=
  fun a => if a = address then byte else mem a

/-- Puts bytes from an address on. -/
def write (mem : Memory) (address : BitVec 64) : List UInt8 → Memory
  | [] => mem
  | b :: bs => write (mem.set address b) (address + 1) bs

def cell (mem : Memory) (address : BitVec 64) : BitVec 64 :=
  BitVec.ofNat 64 (ofLittleEndian (mem.read address 8))

def setCell (mem : Memory) (address value : BitVec 64) : Memory :=
  mem.write address (littleEndian 8 value.toNat)

@[simp] theorem length_read (mem : Memory) (address : BitVec 64) (n : Nat) :
    (mem.read address n).length = n := by
  induction n generalizing address with
  | zero => rfl
  | succ n ih => simp [read, ih]

@[simp] theorem set_self (mem : Memory) (address : BitVec 64) (byte : UInt8) :
    mem.set address byte address = byte := by
  simp [set]

theorem set_of_ne (mem : Memory) {a address : BitVec 64} (byte : UInt8) (h : a ≠ address) :
    mem.set address byte a = mem a := by
  simp [set, h]

end Memory

/-- The flags that conditions look at. -/
structure Flags where
  zero : Bool := false
  sign : Bool := false
  overflow : Bool := false
deriving DecidableEq

/-- The flags after an operation with the given result. -/
def Flags.ofResult (result : BitVec 64) (overflow : Bool) : Flags :=
  ⟨result == 0, result.msb, overflow⟩

/-- Whether a condition is met. -/
def Condition.holds (flags : Flags) : Condition → Bool
  | .overflow => flags.overflow
  | .equal => flags.zero
  | .notEqual => !flags.zero
  | .sign => flags.sign
  | .notSign => !flags.sign
  | .less => flags.sign != flags.overflow
  | .greater => !flags.zero && flags.sign == flags.overflow

structure Machine where
  /-- The address of the next instruction. -/
  ip : BitVec 64
  reg : Register → BitVec 64
  flags : Flags
  mem : Memory
  /-- The bytes written to the standard output. -/
  output : List UInt8

namespace Machine

open Register

def setReg (m : Machine) (r : Register) (value : BitVec 64) : Machine :=
  { m with reg := fun q => if q = r then value else m.reg q }

def setFlags (m : Machine) (result : BitVec 64) (overflow : Bool) : Machine :=
  { m with flags := .ofResult result overflow }

def addressOf (m : Machine) (operand : Mem) : BitVec 64 :=
  m.reg operand.base + operand.disp.signExtend 64

def cellAt (m : Machine) (operand : Mem) : BitVec 64 :=
  m.mem.cell (m.addressOf operand)

def setCellAt (m : Machine) (operand : Mem) (value : BitVec 64) : Machine :=
  { m with mem := m.mem.setCell (m.addressOf operand) value }

def pushCell (m : Machine) (value : BitVec 64) : Machine :=
  let top := m.reg rsp - 8
  { m.setReg rsp top with mem := m.mem.setCell top value }

def topCell (m : Machine) : BitVec 64 :=
  m.mem.cell (m.reg rsp)

def dropCell (m : Machine) : Machine :=
  m.setReg rsp (m.reg rsp + 8)

def jump (m : Machine) (address : BitVec 64) : Machine :=
  { m with ip := address }

@[simp] theorem reg_setReg_self (m : Machine) (r : Register) (value : BitVec 64) :
    (m.setReg r value).reg r = value := by
  simp [setReg]

theorem reg_setReg_of_ne (m : Machine) {q r : Register} (value : BitVec 64) (h : q ≠ r) :
    (m.setReg r value).reg q = m.reg q := by
  simp [setReg, h]

end Machine

end ForthElf
