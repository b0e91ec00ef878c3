import ForthElf.Machine.Bytes
import ForthElf.Machine.Instruction

/-!
# Encoding instructions

* `Instruction.encode i` — the bytes of the instruction `i`, in its shortest form here;
* `assemble is` — the bytes of a block of instructions, one after the other;
* `codeSize is` — their number, from which displacements inside a block are computed.

The parts of an instruction are an optional prefix byte (REX), the opcode, a byte with the operand fields
(ModRM), for bases with low bits 4 one more byte (SIB), a displacement and a constant.
-/

namespace ForthElf

/-! ### Parts -/

/-- Whether a displacement or constant is the sign extension of its low byte. -/
def fitsByte (v : BitVec 32) : Bool :=
  (v.setWidth 8).signExtend 32 == v

/-- Whether a constant is the sign extension of its low 32 bits. -/
def fitsHalf (v : BitVec 64) : Bool :=
  (v.setWidth 32).signExtend 64 == v

def bytes32 (v : BitVec 32) : List UInt8 :=
  littleEndian 4 v.toNat

def bytes64 (v : BitVec 64) : List UInt8 :=
  littleEndian 8 v.toNat

/-- The byte for a displacement or constant that fits one. -/
def byte8 (v : BitVec 32) : UInt8 :=
  UInt8.ofNat v.toNat

/-- The prefix byte: `w` asks for 64-bit operands, `r` and `b` extend the register fields. -/
def rexByte (w r b : Bool) : UInt8 :=
  UInt8.ofNat (0x40 + 8 * w.toNat + 4 * r.toNat + b.toNat)

/-- The prefix byte if it says anything, or if it is needed to name a byte register. -/
def rex (w r b named : Bool) : List UInt8 :=
  if w || r || b || named then [rexByte w r b] else []

/-- The operand byte with its three fields. -/
def modRM (mode reg rm : Nat) : UInt8 :=
  UInt8.ofNat (64 * mode + 8 * reg + rm)

/-- The operand byte for a register operand beside the field `reg`. -/
def regOperand (reg : Nat) (rm : Register) : List UInt8 :=
  [modRM 3 reg rm.low]

/-- The second operand byte, which a base with low bits 4 requires. -/
def sib (base : Register) : List UInt8 :=
  if base.low = 4 then [0x24] else []

/-- The operand bytes for a memory operand beside the field `reg`; no displacement, one byte or four.
A base with low bits 5 always takes a displacement. -/
def memOperand (reg : Nat) (m : Mem) : List UInt8 :=
  if m.disp = 0 ∧ m.base.low ≠ 5 then modRM 0 reg m.base.low :: sib m.base
  else if fitsByte m.disp then modRM 1 reg m.base.low :: sib m.base ++ [byte8 m.disp]
  else modRM 2 reg m.base.low :: sib m.base ++ bytes32 m.disp

/-- An instruction on 64-bit operands with a register operand. -/
def wideReg (opcode : List UInt8) (reg rm : Register) : List UInt8 :=
  rex true reg.extended rm.extended false ++ opcode ++ regOperand reg.low rm

/-- An instruction on 64-bit operands with a memory operand. -/
def wideMem (opcode : List UInt8) (reg : Register) (m : Mem) : List UInt8 :=
  rex true reg.extended m.base.extended false ++ opcode ++ memOperand reg.low m

/-- An instruction on one 64-bit register whose operation stands in the field `digit`. -/
def wideDigit (opcode : UInt8) (digit : Nat) (rm : Register) : List UInt8 :=
  rex true false rm.extended false ++ [opcode] ++ regOperand digit rm

/-- An instruction on one 64-bit memory cell whose operation stands in the field `digit`. -/
def wideDigitMem (opcode : UInt8) (digit : Nat) (m : Mem) : List UInt8 :=
  rex true false m.base.extended false ++ [opcode] ++ memOperand digit m

/-- The byte `base + offset` of a family of opcodes. -/
def opcode (base offset : Nat) : UInt8 :=
  UInt8.ofNat (base + offset)

/-- The opcode of a branch, in front of its displacement. -/
def Branch.opcode : Branch → List UInt8
  | .jump => [0xE9]
  | .jumpIf condition => [0x0F, ForthElf.opcode 0x80 condition.code]
  | .call => [0xE8]

/-! ### Instructions -/

namespace Instruction

def encode : Instruction → List UInt8
  | .movRegReg dst src => wideReg [0x89] src dst
  | .movRegImm dst value =>
    if fitsHalf value then wideDigit 0xC7 0 dst ++ bytes32 (value.setWidth 32)
    else rex true false dst.extended false ++ [opcode 0xB8 dst.low] ++ bytes64 value
  | .movReg32Imm dst value =>
    rex false false dst.extended false ++ [opcode 0xB8 dst.low] ++ bytes32 value
  | .load dst src => wideMem [0x8B] dst src
  | .store dst src => wideMem [0x89] src dst
  | .storeImm dst value => wideDigitMem 0xC7 0 dst ++ bytes32 value
  | .storeByte dst src =>
    rex false src.extended dst.base.extended src.byteNeedsRex ++ [0x88] ++ memOperand src.low dst
  | .loadByte dst src =>
    rex false dst.extended src.base.extended false ++ [0x0F, 0xB6] ++ memOperand dst.low src
  | .zeroExtendByte dst src =>
    rex false dst.extended src.extended src.byteNeedsRex ++ [0x0F, 0xB6] ++ regOperand dst.low src
  | .lea dst src => wideMem [0x8D] dst src
  | .push src => rex false false src.extended false ++ [opcode 0x50 src.low]
  | .pop dst => rex false false dst.extended false ++ [opcode 0x58 dst.low]
  | .aluRegReg op dst src => wideReg [opcode 0x01 (8 * op.code)] src dst
  | .aluRegImm op dst value =>
    if fitsByte value then wideDigit 0x83 op.code dst ++ [byte8 value]
    else wideDigit 0x81 op.code dst ++ bytes32 value
  | .aluMemReg op dst src => wideMem [opcode 0x01 (8 * op.code)] src dst
  | .aluRegMem op dst src => wideMem [opcode 0x03 (8 * op.code)] dst src
  | .incMem dst => wideDigitMem 0xFF 0 dst
  | .decReg dst => wideDigit 0xFF 1 dst
  | .imul dst src => wideReg [0x0F, 0xAF] dst src
  | .cqo => [0x48, 0x99]
  | .unary op dst => wideDigit 0xF7 op.code dst
  | .shift op dst => wideDigit 0xD3 op.code dst
  | .test left right => wideReg [0x85] right left
  | .setIf condition dst =>
    rex false false dst.extended dst.byteNeedsRex ++ [0x0F, opcode 0x90 condition.code] ++
      regOperand 0 dst
  | .moveIf condition dst src => wideReg [0x0F, opcode 0x40 condition.code] dst src
  | .branch kind disp => kind.opcode ++ bytes32 disp
  | .ret => [0xC3]
  | .syscall => [0x0F, 0x05]

def size (i : Instruction) : Nat :=
  i.encode.length

end Instruction

/-! ### Blocks -/

def assemble (block : List Instruction) : List UInt8 :=
  block.flatMap Instruction.encode

def codeSize : List Instruction → Nat
  | [] => 0
  | i :: block => i.size + codeSize block

@[simp] theorem assemble_nil : assemble [] = [] := rfl

@[simp] theorem assemble_cons (i : Instruction) (block : List Instruction) :
    assemble (i :: block) = i.encode ++ assemble block := by
  simp [assemble]

@[simp] theorem assemble_append (a b : List Instruction) :
    assemble (a ++ b) = assemble a ++ assemble b := by
  simp [assemble]

@[simp] theorem codeSize_nil : codeSize [] = 0 := rfl

@[simp] theorem codeSize_cons (i : Instruction) (block : List Instruction) :
    codeSize (i :: block) = i.size + codeSize block := rfl

@[simp] theorem codeSize_append (a b : List Instruction) :
    codeSize (a ++ b) = codeSize a + codeSize b := by
  induction a with
  | nil => simp
  | cons i a ih => simp [ih, Nat.add_assoc]

theorem length_assemble (block : List Instruction) : (assemble block).length = codeSize block := by
  induction block with
  | nil => rfl
  | cons i block ih => simp [ih, Instruction.size]

end ForthElf
