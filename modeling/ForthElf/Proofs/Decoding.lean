import ForthElf.Machine.Decode
import Mathlib.Algebra.Ring.Int.Defs
import Mathlib.Algebra.Ring.Nat

/-!
# Decoding what was encoded

Every instruction on the sixteen registers is read back from its bytes, whatever stands behind them.

* `ofLittleEndian_littleEndian` — reading what was written gives a number back up to its width;
* `Instruction.Encodable i` — all registers of `i` exist;
* `decode_encode` — the bytes of an instruction decode to it and leave the bytes behind;
* `decodeAll_assemble` — a block of instructions is cut at its instructions.
-/

namespace ForthElf

/-! ### Numbers -/

/-- **Reading back.** The bytes of `v` denote `v` modulo their range. -/
theorem ofLittleEndian_littleEndian (n v : Nat) :
    ofLittleEndian (littleEndian n v) = v % 256 ^ n := by
  induction n generalizing v with
  | zero => simp [littleEndian, ofLittleEndian, Nat.mod_one]
  | succ n ih =>
    have hpow : 256 ^ (n + 1) = 256 * 256 ^ n := by rw [Nat.pow_succ, Nat.mul_comm]
    rw [littleEndian, ofLittleEndian, ih, UInt8.toNat_ofNat', hpow, Nat.mod_mul]

theorem ofLittleEndian_lt (bs : List UInt8) : ofLittleEndian bs < 256 ^ bs.length := by
  induction bs with
  | nil => simp [ofLittleEndian]
  | cons b bs ih =>
    have hb := b.toNat_lt
    simp only [ofLittleEndian, List.length_cons, Nat.pow_succ]
    omega

theorem takeNumber_littleEndian (n v : Nat) (rest : List UInt8) :
    takeNumber n (littleEndian n v ++ rest) = some (v % 256 ^ n, rest) := by
  have hlen : n ≤ (littleEndian n v ++ rest).length := by simp
  rw [takeNumber, if_pos hlen, List.take_left' (littleEndian_length n v),
    List.drop_left' (littleEndian_length n v), ofLittleEndian_littleEndian]

@[simp] theorem take32_bytes32 (v : BitVec 32) (rest : List UInt8) :
    take32 (bytes32 v ++ rest) = some (v, rest) := by
  have hv : v.toNat % 256 ^ 4 = v.toNat := Nat.mod_eq_of_lt v.isLt
  rw [take32, bytes32, takeNumber_littleEndian, hv]
  simp

@[simp] theorem take64_bytes64 (v : BitVec 64) (rest : List UInt8) :
    take64 (bytes64 v ++ rest) = some (v, rest) := by
  have hv : v.toNat % 256 ^ 8 = v.toNat := Nat.mod_eq_of_lt v.isLt
  rw [take64, bytes64, takeNumber_littleEndian, hv]
  simp

theorem take8_byte8 {v : BitVec 32} (h : fitsByte v = true) (rest : List UInt8) :
    take8 (byte8 v :: rest) = some (v, rest) := by
  have hbyte : BitVec.ofNat 8 (v.toNat % 256) = v.setWidth 8 := by
    apply BitVec.eq_of_toNat_eq
    simp
  have hext : (v.setWidth 8).signExtend 32 = v := by simpa [fitsByte] using h
  simp [take8, takeNumber, byte8, ofLittleEndian, hbyte, hext]

@[simp] theorem length_bytes32 (v : BitVec 32) : (bytes32 v).length = 4 :=
  littleEndian_length 4 _

@[simp] theorem length_bytes64 (v : BitVec 64) : (bytes64 v).length = 8 :=
  littleEndian_length 8 _

/-! ### Prefix bytes -/

def isRex (byte : UInt8) : Bool :=
  byte.toNat / 16 = 4 ∧ byte.toNat / 2 % 2 = 0

theorem splitRex_of_not_isRex {byte : UInt8} (h : isRex byte = false) (rest : List UInt8) :
    splitRex (byte :: rest) = (Rex.none, byte :: rest) := by
  have h' : ¬ (byte.toNat / 16 = 4 ∧ byte.toNat / 2 % 2 = 0) := by simpa [isRex] using h
  simp [splitRex, h']

/-- The prefix byte is read back, and an opcode that is none is left alone. -/
theorem splitRex_rex (w r b named : Bool) {op : UInt8} (h : isRex op = false) (rest : List UInt8) :
    splitRex (rex w r b named ++ op :: rest) = (⟨w || r || b || named, w, r, b⟩, op :: rest) := by
  cases w <;> cases r <;> cases b <;> cases named <;>
    first
    | exact splitRex_of_not_isRex h rest
    | rfl

theorem decode_rex (w r b named : Bool) {op : UInt8} (h : isRex op = false) (rest : List UInt8) :
    decode (rex w r b named ++ op :: rest) = decodeOpcode ⟨w || r || b || named, w, r, b⟩ (op :: rest) := by
  rw [decode, splitRex_rex w r b named h]

/-! ### Operand bytes -/

theorem toNat_modRM {mode reg : Nat} (hmode : mode < 4) (hreg : reg < 8) (r : Register) :
    (modRM mode reg r.low).toNat = 64 * mode + 8 * reg + r.low := by
  have hlow := r.low_lt
  rw [modRM, UInt8.toNat_ofNat']
  omega

section Operands

variable {present w ext : Bool} {field : Nat} {r : Register} {m : Mem} (hfield : field < 8)
include hfield

theorem takeOperand_regOperand (hr : r.id < 16) (rest : List UInt8) :
    takeOperand ⟨present, w, ext, r.extended⟩ (regOperand field r ++ rest) =
      some ((field, .reg r), rest) := by
  have hbyte := toNat_modRM (show 3 < 4 by omega) hfield r
  have hlow := r.low_lt
  have h1 : (64 * 3 + 8 * field + r.low) / 64 = 3 := by omega
  have h2 : (64 * 3 + 8 * field + r.low) / 8 % 8 = field := by omega
  have h3 : (64 * 3 + 8 * field + r.low) % 8 = r.low := by omega
  simp only [regOperand, List.singleton_append, takeOperand, hbyte, h1, h2, h3, if_true,
    Register.ofBits_low hr]

omit hfield in
theorem skipSib_sib (base : Register) (rest : List UInt8) :
    skipSib base.low (sib base ++ rest) = some rest := by
  by_cases h : base.low = 4 <;> simp [skipSib, sib, h]

theorem takeOperand_mem {mode : Nat} {disp rest : List UInt8} (hmode : mode < 3)
    (hbase : m.base.id < 16)
    (hdisp : takeDisp mode m.base.low (disp ++ rest) = some (m.disp, rest)) :
    takeOperand ⟨present, w, ext, m.base.extended⟩
        (modRM mode field m.base.low :: sib m.base ++ disp ++ rest) =
      some ((field, .mem m), rest) := by
  have hbyte := toNat_modRM (show mode < 4 by omega) hfield m.base
  have hlow := m.base.low_lt
  have h1 : (64 * mode + 8 * field + m.base.low) / 64 = mode := by omega
  have h2 : (64 * mode + 8 * field + m.base.low) / 8 % 8 = field := by omega
  have h3 : (64 * mode + 8 * field + m.base.low) % 8 = m.base.low := by omega
  have h4 : mode ≠ 3 := by omega
  simp only [List.cons_append, List.append_assoc, takeOperand, hbyte, h1, h2, h3, if_neg h4,
    skipSib_sib, hdisp, Register.ofBits_low hbase]

theorem takeOperand_memOperand (hbase : m.base.id < 16) (rest : List UInt8) :
    takeOperand ⟨present, w, ext, m.base.extended⟩ (memOperand field m ++ rest) =
      some ((field, .mem m), rest) := by
  unfold memOperand
  split
  · next h =>
    have hdisp : takeDisp 0 m.base.low ([] ++ rest) = some (m.disp, rest) := by
      simp [takeDisp, h.1, h.2]
    simpa using takeOperand_mem hfield (by omega) hbase hdisp
  · split
    · next h =>
      exact takeOperand_mem hfield (by omega) hbase (by simp [takeDisp, take8_byte8 h])
    · exact takeOperand_mem hfield (by omega) hbase (by simp [takeDisp])

theorem withOperand_regOperand (hr : r.id < 16) (rest : List UInt8)
    (onReg : Nat → Register → Option Instruction) (onMem : Nat → Mem → Option Instruction) :
    withOperand ⟨present, w, ext, r.extended⟩ (regOperand field r ++ rest) onReg onMem =
      (onReg field r).map (·, rest) := by
  rw [withOperand, takeOperand_regOperand hfield hr]

theorem withOperand_memOperand (hbase : m.base.id < 16) (rest : List UInt8)
    (onReg : Nat → Register → Option Instruction) (onMem : Nat → Mem → Option Instruction) :
    withOperand ⟨present, w, ext, m.base.extended⟩ (memOperand field m ++ rest) onReg onMem =
      (onMem field m).map (·, rest) := by
  rw [withOperand, takeOperand_memOperand hfield hbase]

section Constants

variable {bytes rest : List UInt8} {constant : List UInt8 → Option (BitVec 32 × List UInt8)}
  {value : BitVec 32} (hvalue : constant bytes = some (value, rest))
  (onReg : Nat → Register → BitVec 32 → Option Instruction)
  (onMem : Nat → Mem → BitVec 32 → Option Instruction)
include hvalue

theorem withOperandAnd_regOperand (hr : r.id < 16) :
    withOperandAnd ⟨present, w, ext, r.extended⟩ (regOperand field r ++ bytes) constant onReg onMem =
      (onReg field r value).map (·, rest) := by
  rw [withOperandAnd, takeOperand_regOperand hfield hr]
  simp only [hvalue]

theorem withOperandAnd_memOperand (hbase : m.base.id < 16) :
    withOperandAnd ⟨present, w, ext, m.base.extended⟩ (memOperand field m ++ bytes) constant onReg
        onMem =
      (onMem field m value).map (·, rest) := by
  rw [withOperandAnd, takeOperand_memOperand hfield hbase]
  simp only [hvalue]

end Constants

end Operands

/-! ### Instructions -/

namespace Instruction

def registers : Instruction → List Register
  | .movRegReg dst src | .zeroExtendByte dst src | .aluRegReg _ dst src | .imul dst src
  | .test dst src | .moveIf _ dst src => [dst, src]
  | .movRegImm r _ | .movReg32Imm r _ | .push r | .pop r | .aluRegImm _ r _ | .decReg r
  | .unary _ r | .shift _ r | .setIf _ r => [r]
  | .load r m | .store m r | .storeByte m r | .loadByte r m | .lea r m | .aluMemReg _ m r
  | .aluRegMem _ r m => [r, m.base]
  | .storeImm m _ | .incMem m => [m.base]
  | .cqo | .branch _ _ | .ret | .syscall => []

/-- Whether all registers of an instruction exist. -/
def Encodable (i : Instruction) : Prop :=
  ∀ r ∈ i.registers, r.id < 16

instance (i : Instruction) : Decidable i.Encodable :=
  inferInstanceAs (Decidable (∀ r ∈ i.registers, r.id < 16))

end Instruction

section Families

variable {op : UInt8} (hop : isRex op = false) (rest : List UInt8)
include hop

theorem decode_wideReg (hop' : op ≠ 0x0F) (reg rm : Register) :
    decode (wideReg [op] reg rm ++ rest) =
      decodeWide ⟨true, true, reg.extended, rm.extended⟩ op.toNat (regOperand reg.low rm ++ rest) := by
  simp only [wideReg, List.append_assoc, List.cons_append, List.nil_append, decode_rex _ _ _ _ hop]
  simp [decodeOpcode, hop']

theorem decode_wideMem (hop' : op ≠ 0x0F) (reg : Register) (m : Mem) :
    decode (wideMem [op] reg m ++ rest) =
      decodeWide ⟨true, true, reg.extended, m.base.extended⟩ op.toNat
        (memOperand reg.low m ++ rest) := by
  simp only [wideMem, List.append_assoc, List.cons_append, List.nil_append, decode_rex _ _ _ _ hop]
  simp [decodeOpcode, hop']

theorem decode_wideDigit (hop' : op ≠ 0x0F) (digit : Nat) (rm : Register) :
    decode (wideDigit op digit rm ++ rest) =
      decodeWide ⟨true, true, false, rm.extended⟩ op.toNat (regOperand digit rm ++ rest) := by
  simp only [wideDigit, List.append_assoc, List.cons_append, List.nil_append, decode_rex _ _ _ _ hop]
  simp [decodeOpcode, hop']

theorem decode_wideDigitMem (hop' : op ≠ 0x0F) (digit : Nat) (m : Mem) :
    decode (wideDigitMem op digit m ++ rest) =
      decodeWide ⟨true, true, false, m.base.extended⟩ op.toNat (memOperand digit m ++ rest) := by
  simp only [wideDigitMem, List.append_assoc, List.cons_append, List.nil_append,
    decode_rex _ _ _ _ hop]
  simp [decodeOpcode, hop']

end Families

theorem decode_wideTwo (op : UInt8) (reg rm : Register) (rest : List UInt8) :
    decode (wideReg [0x0F, op] reg rm ++ rest) =
      decodeWideTwo ⟨true, true, reg.extended, rm.extended⟩ op.toNat
        (regOperand reg.low rm ++ rest) := by
  simp only [wideReg, List.append_assoc, List.cons_append, List.nil_append]
  rw [decode_rex _ _ _ _ (by decide)]
  simp [decodeOpcode]

theorem decode_narrow (r b named : Bool) {op : UInt8} (hop : isRex op = false) (hop' : op ≠ 0x0F)
    (rest : List UInt8) :
    decode (rex false r b named ++ op :: rest) =
      decodeNarrow ⟨r || b || named, false, r, b⟩ op.toNat rest := by
  rw [decode_rex _ _ _ _ hop]
  simp [decodeOpcode, hop']

theorem decode_narrowTwo (r b named : Bool) (op : UInt8) (rest : List UInt8) :
    decode (rex false r b named ++ 0x0F :: op :: rest) =
      decodeNarrowTwo ⟨r || b || named, false, r, b⟩ op.toNat rest := by
  rw [decode_rex _ _ _ _ (by decide)]
  simp [decodeOpcode]

theorem toNat_opcode {base offset : Nat} (h : base + offset < 256) :
    (opcode base offset).toNat = base + offset := by
  rw [opcode, UInt8.toNat_ofNat']
  omega

/-- An opcode that holds a register number is no prefix byte and has one byte. -/
theorem isRex_opcode {n : Nat} (h : n < 8) :
    (isRex (opcode 0xB8 n) = false ∧ opcode 0xB8 n ≠ 0x0F) ∧
      (isRex (opcode 0x50 n) = false ∧ opcode 0x50 n ≠ 0x0F) ∧
      (isRex (opcode 0x58 n) = false ∧ opcode 0x58 n ≠ 0x0F) := by
  revert n
  decide

theorem namesByte_byteNeedsRex (r : Register) (a : Bool) (w e b : Bool) :
    namesByte ⟨a || r.byteNeedsRex, w, e, b⟩ r = true := by
  cases h : r.byteNeedsRex <;> simp [namesByte, h]

/-! ### Reading back -/

section Registers

variable {i : Instruction} (h : i.Encodable)
include h

theorem Instruction.Encodable.one {r : Register} (hi : i.registers = [r]) : r.id < 16 :=
  h r (by simp [hi])

theorem Instruction.Encodable.two {r q : Register} (hi : i.registers = [r, q]) :
    r.id < 16 ∧ q.id < 16 :=
  ⟨h r (by simp [hi]), h q (by simp [hi])⟩

end Registers

/-- **Reading back.** The bytes of an instruction decode to it and leave the bytes behind. -/
theorem decode_encode {i : Instruction} (h : i.Encodable) (rest : List UInt8) :
    decode (i.encode ++ rest) = some (i, rest) := by
  cases i with
  | movRegReg dst src =>
    obtain ⟨hd, hs⟩ := h.two rfl
    rw [Instruction.encode, decode_wideReg (by decide) _ (by decide)]
    simp [decodeWide, withOperand_regOperand src.low_lt hd, Register.ofBits_low hs]
  | movRegImm dst value =>
    have hd := h.one rfl
    rw [Instruction.encode]
    split
    · next hfits =>
      have hext : (value.setWidth 32).signExtend 64 = value := by simpa [fitsHalf] using hfits
      rw [List.append_assoc, decode_wideDigit (by decide) _ (by decide)]
      simp [decodeWide, withOperandAnd_regOperand (show 0 < 8 by decide)
        (take32_bytes32 (value.setWidth 32) rest) _ _ hd, hext]
    · have hlow := dst.low_lt
      have hop := toNat_opcode (show 0xB8 + dst.low < 256 by omega)
      have hkind : (0xB8 + dst.low) / 8 = 0xB8 / 8 := by omega
      have hreg : (0xB8 + dst.low) % 8 = dst.low := by omega
      simp only [List.append_assoc, List.cons_append, List.nil_append]
      rw [decode_rex _ _ _ _ (isRex_opcode hlow).1.1]
      simp only [decodeOpcode, (isRex_opcode hlow).1.2, if_false, if_true, hop, decodeWide]
      rw [if_neg (by omega), if_neg (by omega), if_neg (by omega), if_neg (by omega),
        if_neg (by omega), if_pos hkind, hreg, Register.ofBits_low hd]
      simp
  | movReg32Imm dst value =>
    have hd := h.one rfl
    have hlow := dst.low_lt
    have hop := toNat_opcode (show 0xB8 + dst.low < 256 by omega)
    have hkind : (0xB8 + dst.low) / 8 = 0xB8 / 8 := by omega
    have hreg : (0xB8 + dst.low) % 8 = dst.low := by omega
    simp only [Instruction.encode, List.append_assoc, List.cons_append, List.nil_append]
    rw [decode_narrow _ _ _ (isRex_opcode hlow).1.1 (isRex_opcode hlow).1.2, hop, decodeNarrow,
      if_pos hkind, hreg, Register.ofBits_low hd]
    simp
  | load dst src =>
    obtain ⟨hd, hb⟩ := h.two rfl
    rw [Instruction.encode, decode_wideMem (by decide) _ (by decide)]
    simp [decodeWide, withOperand_memOperand dst.low_lt hb, Register.ofBits_low hd]
  | store dst src =>
    obtain ⟨hs, hb⟩ := h.two rfl
    rw [Instruction.encode, decode_wideMem (by decide) _ (by decide)]
    simp [decodeWide, withOperand_memOperand src.low_lt hb, Register.ofBits_low hs]
  | storeImm dst value =>
    have hb := h.one rfl
    rw [Instruction.encode, List.append_assoc, decode_wideDigitMem (by decide) _ (by decide)]
    simp [decodeWide, withOperandAnd_memOperand (show 0 < 8 by decide) (take32_bytes32 value rest) _ _ hb]
  | storeByte dst src =>
    obtain ⟨hs, hb⟩ := h.two rfl
    simp only [Instruction.encode, List.append_assoc, List.cons_append, List.nil_append]
    rw [decode_narrow _ _ _ (by decide) (by decide)]
    simp [decodeNarrow, withOperand_memOperand src.low_lt hb, Register.ofBits_low hs,
      namesByte_byteNeedsRex]
  | loadByte dst src =>
    obtain ⟨hd, hb⟩ := h.two rfl
    simp only [Instruction.encode, List.append_assoc, List.cons_append, List.nil_append]
    rw [decode_narrowTwo]
    simp [decodeNarrowTwo, withOperand_memOperand dst.low_lt hb, Register.ofBits_low hd]
  | zeroExtendByte dst src =>
    obtain ⟨hd, hs⟩ := h.two rfl
    simp only [Instruction.encode, List.append_assoc, List.cons_append, List.nil_append]
    rw [decode_narrowTwo]
    simp [decodeNarrowTwo, withOperand_regOperand dst.low_lt hs, Register.ofBits_low hd,
      namesByte_byteNeedsRex]
  | lea dst src =>
    obtain ⟨hd, hb⟩ := h.two rfl
    rw [Instruction.encode, decode_wideMem (by decide) _ (by decide)]
    simp [decodeWide, withOperand_memOperand dst.low_lt hb, Register.ofBits_low hd]
  | push src =>
    have hs := h.one rfl
    have hlow := src.low_lt
    have hop := toNat_opcode (show 0x50 + src.low < 256 by omega)
    have hkind : (0x50 + src.low) / 8 = 0x50 / 8 := by omega
    have hreg : (0x50 + src.low) % 8 = src.low := by omega
    simp only [Instruction.encode, List.append_assoc, List.cons_append, List.nil_append]
    rw [decode_narrow _ _ _ (isRex_opcode hlow).2.1.1 (isRex_opcode hlow).2.1.2, hop, decodeNarrow,
      if_neg (by omega), if_neg (by omega), if_pos hkind, hreg, Register.ofBits_low hs]
  | pop dst =>
    have hd := h.one rfl
    have hlow := dst.low_lt
    have hop := toNat_opcode (show 0x58 + dst.low < 256 by omega)
    have hkind : (0x58 + dst.low) / 8 = 0x58 / 8 := by omega
    have hreg : (0x58 + dst.low) % 8 = dst.low := by omega
    simp only [Instruction.encode, List.append_assoc, List.cons_append, List.nil_append]
    rw [decode_narrow _ _ _ (isRex_opcode hlow).2.2.1 (isRex_opcode hlow).2.2.2, hop, decodeNarrow,
      if_neg (by omega), if_neg (by omega), if_neg (by omega), if_pos hkind, hreg,
      Register.ofBits_low hd]
  | aluRegReg op dst src =>
    obtain ⟨hd, hs⟩ := h.two rfl
    rw [Instruction.encode, decode_wideReg (by cases op <;> decide) _ (by cases op <;> decide)]
    cases op <;>
      simp [decodeWide, withOperand_regOperand src.low_lt hd, Register.ofBits_low hs, opcode,
        AluOp.code, AluOp.ofCode?, AluOp.all]
  | aluRegImm op dst value =>
    have hd := h.one rfl
    rw [Instruction.encode]
    split
    · next hfits =>
      rw [List.append_assoc, decode_wideDigit (by decide) _ (by decide)]
      simp [decodeWide, withOperandAnd_regOperand op.code_lt (take8_byte8 hfits rest) _ _ hd]
    · rw [List.append_assoc, decode_wideDigit (by decide) _ (by decide)]
      simp [decodeWide, withOperandAnd_regOperand op.code_lt (take32_bytes32 value rest) _ _ hd]
  | aluMemReg op dst src =>
    obtain ⟨hs, hb⟩ := h.two rfl
    rw [Instruction.encode, decode_wideMem (by cases op <;> decide) _ (by cases op <;> decide)]
    cases op <;>
      simp [decodeWide, withOperand_memOperand src.low_lt hb, Register.ofBits_low hs, opcode,
        AluOp.code, AluOp.ofCode?, AluOp.all]
  | aluRegMem op dst src =>
    obtain ⟨hd, hb⟩ := h.two rfl
    rw [Instruction.encode, decode_wideMem (by cases op <;> decide) _ (by cases op <;> decide)]
    cases op <;>
      simp [decodeWide, withOperand_memOperand dst.low_lt hb, Register.ofBits_low hd, opcode,
        AluOp.code, AluOp.ofCode?, AluOp.all]
  | incMem dst =>
    have hb := h.one rfl
    rw [Instruction.encode, decode_wideDigitMem (by decide) _ (by decide)]
    simp [decodeWide, withOperand_memOperand (show 0 < 8 by decide) hb]
  | decReg dst =>
    have hd := h.one rfl
    rw [Instruction.encode, decode_wideDigit (by decide) _ (by decide)]
    simp [decodeWide, withOperand_regOperand (show 1 < 8 by decide) hd]
  | imul dst src =>
    obtain ⟨hd, hs⟩ := h.two rfl
    rw [Instruction.encode, decode_wideTwo]
    simp [decodeWideTwo, withOperand_regOperand dst.low_lt hs, Register.ofBits_low hd]
  | cqo => rfl
  | unary op dst =>
    have hd := h.one rfl
    rw [Instruction.encode, decode_wideDigit (by decide) _ (by decide)]
    simp [decodeWide, withOperand_regOperand op.code_lt hd]
  | shift op dst =>
    have hd := h.one rfl
    rw [Instruction.encode, decode_wideDigit (by decide) _ (by decide)]
    simp [decodeWide, withOperand_regOperand op.code_lt hd]
  | test left right =>
    obtain ⟨hl, hr⟩ := h.two rfl
    rw [Instruction.encode, decode_wideReg (by decide) _ (by decide)]
    simp [decodeWide, withOperand_regOperand right.low_lt hl, Register.ofBits_low hr]
  | setIf condition dst =>
    have hd := h.one rfl
    simp only [Instruction.encode, List.append_assoc, List.cons_append, List.nil_append]
    rw [decode_narrowTwo]
    cases condition <;>
      simp [decodeNarrowTwo, withOperand_regOperand (show 0 < 8 by decide) hd,
        namesByte_byteNeedsRex, opcode, Condition.code, Condition.ofCode?, Condition.all]
  | moveIf condition dst src =>
    obtain ⟨hd, hs⟩ := h.two rfl
    rw [Instruction.encode, decode_wideTwo]
    cases condition <;>
      simp [decodeWideTwo, withOperand_regOperand dst.low_lt hs, Register.ofBits_low hd, opcode,
        Condition.code, Condition.ofCode?, Condition.all]
  | branch kind disp =>
    rw [Instruction.encode, List.append_assoc]
    cases kind with
    | jump =>
      simp [Branch.opcode, decode, splitRex, decodeOpcode, Rex.none, decodeNarrow, takeBranch]
    | jumpIf condition =>
      cases condition <;>
        simp [Branch.opcode, decode, splitRex, decodeOpcode, Rex.none, decodeNarrowTwo, takeBranch,
          opcode, Condition.code, Condition.ofCode?, Condition.all]
    | call =>
      simp [Branch.opcode, decode, splitRex, decodeOpcode, Rex.none, decodeNarrow, takeBranch]
  | ret => rfl
  | syscall => rfl

/-! ### Code sequences -/

theorem length_rex_le (w r b named : Bool) : (rex w r b named).length ≤ 1 := by
  unfold rex
  split <;> simp

theorem length_memOperand_le (field : Nat) (m : Mem) : (memOperand field m).length ≤ 6 := by
  have hsib : (sib m.base).length ≤ 1 := by
    unfold sib
    split <;> simp
  unfold memOperand
  split
  · simp only [List.length_cons]
    omega
  · split <;> simp <;> omega

theorem length_wideReg_le (opcode : List UInt8) (reg rm : Register) :
    (wideReg opcode reg rm).length ≤ opcode.length + 2 := by
  have := length_rex_le true reg.extended rm.extended false
  simp only [wideReg, regOperand, List.length_append, List.length_singleton]
  omega

theorem length_wideMem_le (opcode : List UInt8) (reg : Register) (m : Mem) :
    (wideMem opcode reg m).length ≤ opcode.length + 7 := by
  have := length_rex_le true reg.extended m.base.extended false
  have := length_memOperand_le reg.low m
  simp only [wideMem, List.length_append]
  omega

theorem length_wideDigit_le (opcode : UInt8) (digit : Nat) (rm : Register) :
    (wideDigit opcode digit rm).length ≤ 3 := by
  have := length_rex_le true false rm.extended false
  simp only [wideDigit, regOperand, List.length_append, List.length_singleton]
  omega

theorem length_wideDigitMem_le (opcode : UInt8) (digit : Nat) (m : Mem) :
    (wideDigitMem opcode digit m).length ≤ 8 := by
  have := length_rex_le true false m.base.extended false
  have := length_memOperand_le digit m
  simp only [wideDigitMem, List.length_append, List.length_singleton]
  omega

/-- No instruction has more bytes than the decoder looks at. -/
theorem Instruction.size_le (i : Instruction) : i.size ≤ 15 := by
  unfold Instruction.size
  cases i with
  | movRegReg dst src | test dst src | aluRegReg op dst src | imul dst src | moveIf c dst src =>
    exact Nat.le_trans (length_wideReg_le ..) (by simp)
  | load dst src | store dst src | lea dst src | aluMemReg op dst src | aluRegMem op dst src =>
    exact Nat.le_trans (length_wideMem_le ..) (by simp)
  | incMem dst => exact Nat.le_trans (length_wideDigitMem_le ..) (by simp)
  | decReg dst | unary op dst | shift op dst => exact Nat.le_trans (length_wideDigit_le ..) (by simp)
  | movRegImm dst value =>
    have := length_rex_le true false dst.extended false
    have := length_wideDigit_le 0xC7 0 dst
    rw [Instruction.encode]
    split <;> simp <;> omega
  | aluRegImm op dst value =>
    have := length_wideDigit_le 0x83 op.code dst
    have := length_wideDigit_le 0x81 op.code dst
    rw [Instruction.encode]
    split <;> simp <;> omega
  | storeImm dst value =>
    have := length_wideDigitMem_le 0xC7 0 dst
    simp [Instruction.encode]
    omega
  | movReg32Imm r _ | push r | pop r =>
    have := length_rex_le false false r.extended false
    simp [Instruction.encode]
    omega
  | storeByte dst src =>
    have := length_rex_le false src.extended dst.base.extended src.byteNeedsRex
    have := length_memOperand_le src.low dst
    simp [Instruction.encode]
    omega
  | loadByte dst src =>
    have := length_rex_le false dst.extended src.base.extended false
    have := length_memOperand_le dst.low src
    simp [Instruction.encode]
    omega
  | zeroExtendByte dst src =>
    have := length_rex_le false dst.extended src.extended src.byteNeedsRex
    simp [Instruction.encode, regOperand]
    omega
  | setIf condition dst =>
    have := length_rex_le false false dst.extended dst.byteNeedsRex
    simp [Instruction.encode, regOperand]
    omega
  | cqo | ret | syscall => decide
  | branch kind disp => cases kind <;> simp [Instruction.encode, Branch.opcode]

theorem Instruction.size_pos {i : Instruction} (h : i.Encodable) : 0 < i.size := by
  have := decode_encode h []
  rw [Instruction.size, List.length_pos_iff]
  rintro hnil
  rw [hnil] at this
  cases this

/-- The bytes of an instruction decode to it even if only a window of bytes is looked at. -/
theorem decode_window {i : Instruction} (h : i.Encodable) (rest : List UInt8) :
    decode (window (i.encode ++ rest)) = some (i, rest.take (15 - i.size)) := by
  have hsize : i.encode.length ≤ 15 := i.size_le
  rw [window, List.take_append, List.take_of_length_le hsize]
  exact decode_encode h _

theorem pieceSize_encode {i : Instruction} (h : i.Encodable) (rest : List UInt8) :
    pieceSize (i.encode ++ rest) = i.size := by
  have hsize : i.encode.length ≤ 15 := i.size_le
  have hpos : 0 < i.encode.length := Instruction.size_pos h
  rw [pieceSize, decode_window h]
  simp only [Instruction.size, window, List.length_take, List.length_append]
  omega

def Instruction.piece (i : Instruction) : Piece :=
  ⟨i.encode, some i⟩

/-- A code sequence is cut behind its first instruction, whatever follows. -/
theorem decodeAll_encode {i : Instruction} (h : i.Encodable) (rest : List UInt8) :
    decodeAll (i.encode ++ rest) = i.piece :: decodeAll rest := by
  have hne : i.encode ++ rest ≠ [] := by
    have := Instruction.size_pos h
    rw [Instruction.size, List.length_pos_iff] at this
    simp [this]
  rw [decodeAll, if_neg hne, firstPiece, pieceSize_encode h, decode_window h, Instruction.size, List.take_left,
    List.drop_left]
  rfl

/-- **Cutting code.** A block of instructions is cut at its instructions. -/
theorem decodeAll_assemble {block : List Instruction} (h : ∀ i ∈ block, i.Encodable) :
    decodeAll (assemble block) = block.map Instruction.piece := by
  induction block with
  | nil => rw [assemble_nil, decodeAll, if_pos rfl, List.map_nil]
  | cons i block ih =>
    rw [assemble_cons, decodeAll_encode (h i (by simp)), ih fun j hj => h j (by simp [hj]), List.map_cons]

end ForthElf
