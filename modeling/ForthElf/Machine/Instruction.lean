import ForthElf.Machine.Register

/-!
# Instructions

* `Mem` — a memory operand: a base register and a signed displacement;
* `Condition`, `AluOp`, `UnaryOp`, `ShiftOp`, `Branch` — the families of operations;
* `Instruction` — the instructions of which compiled code is made.

Operands are 64 bits wide unless a constructor says otherwise.
-/

namespace ForthElf

structure Mem where
  base : Register
  disp : BitVec 32
deriving DecidableEq

/-- The cell that a register points to. -/
def Mem.at (base : Register) : Mem := ⟨base, 0⟩

/-- The conditions of jumps, moves and flag bytes. -/
inductive Condition where
  | overflow
  | equal
  | notEqual
  | sign
  | notSign
  | less
  | greater
deriving DecidableEq

namespace Condition

def all : List Condition :=
  [.overflow, .equal, .notEqual, .sign, .notSign, .less, .greater]

def code : Condition → Nat
  | .overflow => 0x0
  | .equal => 0x4
  | .notEqual => 0x5
  | .sign => 0x8
  | .notSign => 0x9
  | .less => 0xC
  | .greater => 0xF

def ofCode? (code : Nat) : Option Condition :=
  all.find? fun condition => condition.code == code

def suffix : Condition → String
  | .overflow => "o"
  | .equal => "e"
  | .notEqual => "ne"
  | .sign => "s"
  | .notSign => "ns"
  | .less => "l"
  | .greater => "g"

@[simp] theorem ofCode?_code (condition : Condition) : ofCode? condition.code = some condition := by
  cases condition <;> decide

theorem code_lt (condition : Condition) : condition.code < 16 := by
  cases condition <;> decide

end Condition

/-- The operations with two operands that take any of their forms. -/
inductive AluOp where
  | add
  | or
  | and
  | sub
  | xor
  | cmp
deriving DecidableEq

namespace AluOp

def all : List AluOp :=
  [.add, .or, .and, .sub, .xor, .cmp]

def code : AluOp → Nat
  | .add => 0
  | .or => 1
  | .and => 4
  | .sub => 5
  | .xor => 6
  | .cmp => 7

def ofCode? (code : Nat) : Option AluOp :=
  all.find? fun op => op.code == code

def mnemonic : AluOp → String
  | .add => "add"
  | .or => "or"
  | .and => "and"
  | .sub => "sub"
  | .xor => "xor"
  | .cmp => "cmp"

@[simp] theorem ofCode?_code (op : AluOp) : ofCode? op.code = some op := by
  cases op <;> decide

theorem code_lt (op : AluOp) : op.code < 8 := by
  cases op <;> decide

end AluOp

/-- The operations on one register, or on `rax` and `rdx` with one register. -/
inductive UnaryOp where
  | not
  | neg
  | div
  | idiv
deriving DecidableEq

namespace UnaryOp

def all : List UnaryOp :=
  [.not, .neg, .div, .idiv]

def code : UnaryOp → Nat
  | .not => 2
  | .neg => 3
  | .div => 6
  | .idiv => 7

def ofCode? (code : Nat) : Option UnaryOp :=
  all.find? fun op => op.code == code

def mnemonic : UnaryOp → String
  | .not => "not"
  | .neg => "neg"
  | .div => "div"
  | .idiv => "idiv"

@[simp] theorem ofCode?_code (op : UnaryOp) : ofCode? op.code = some op := by
  cases op <;> decide

theorem code_lt (op : UnaryOp) : op.code < 8 := by
  cases op <;> decide

end UnaryOp

/-- The logical shifts by `cl`. -/
inductive ShiftOp where
  | left
  | right
deriving DecidableEq

namespace ShiftOp

def code : ShiftOp → Nat
  | .left => 4
  | .right => 5

def ofCode? (code : Nat) : Option ShiftOp :=
  [ShiftOp.left, .right].find? fun op => op.code == code

def mnemonic : ShiftOp → String
  | .left => "shl"
  | .right => "shr"

@[simp] theorem ofCode?_code (op : ShiftOp) : ofCode? op.code = some op := by
  cases op <;> decide

theorem code_lt (op : ShiftOp) : op.code < 8 := by
  cases op <;> decide

end ShiftOp

/-- The instructions with a target that is given relative to the next instruction. -/
inductive Branch where
  | jump
  | jumpIf (condition : Condition)
  | call
deriving DecidableEq

/-- The instructions that the compiler emits. -/
inductive Instruction where
  | movRegReg (dst src : Register)
  /-- Loads a constant; one that fits 32 signed bits has a short form. -/
  | movRegImm (dst : Register) (value : BitVec 64)
  /-- Loads a 32-bit constant and clears the upper half. -/
  | movReg32Imm (dst : Register) (value : BitVec 32)
  | load (dst : Register) (src : Mem)
  | store (dst : Mem) (src : Register)
  /-- Stores a sign-extended constant. -/
  | storeImm (dst : Mem) (value : BitVec 32)
  /-- Stores the low byte of a register. -/
  | storeByte (dst : Mem) (src : Register)
  /-- Loads a byte and clears the rest of the register. -/
  | loadByte (dst : Register) (src : Mem)
  /-- Keeps the low byte of a register and clears the rest. -/
  | zeroExtendByte (dst src : Register)
  | lea (dst : Register) (src : Mem)
  | push (src : Register)
  | pop (dst : Register)
  | aluRegReg (op : AluOp) (dst src : Register)
  /-- Operates with a sign-extended constant; one that fits eight bits has a short form. -/
  | aluRegImm (op : AluOp) (dst : Register) (value : BitVec 32)
  | aluMemReg (op : AluOp) (dst : Mem) (src : Register)
  | aluRegMem (op : AluOp) (dst : Register) (src : Mem)
  | incMem (dst : Mem)
  | decReg (dst : Register)
  | imul (dst src : Register)
  /-- Sign-extends `rax` into `rdx`. -/
  | cqo
  | unary (op : UnaryOp) (dst : Register)
  | shift (op : ShiftOp) (dst : Register)
  | test (left right : Register)
  | setIf (condition : Condition) (dst : Register)
  | moveIf (condition : Condition) (dst src : Register)
  | branch (kind : Branch) (disp : BitVec 32)
  | ret
  | syscall
deriving DecidableEq

end ForthElf
