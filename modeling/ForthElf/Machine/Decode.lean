import ForthElf.Machine.Encode

/-!
# Decoding instructions

* `decode bytes` — the instruction at the front of `bytes` and the bytes behind it, if it is one of those
  that `Instruction.encode` writes;
* `decodeAll bytes` — a whole code sequence, cut into instructions; a byte with which no instruction
  starts stands alone.
-/

namespace ForthElf

/-! ### Parts -/

/-- The bits of a prefix byte, all clear if there is none. -/
structure Rex where
  present : Bool
  w : Bool
  r : Bool
  b : Bool
deriving DecidableEq

def Rex.none : Rex := ⟨false, false, false, false⟩

/-- The prefix byte in front of the opcode, if there is one. -/
def splitRex : List UInt8 → Rex × List UInt8
  | [] => (.none, [])
  | byte :: rest =>
    if byte.toNat / 16 = 4 ∧ byte.toNat / 2 % 2 = 0 then
      (⟨true, byte.toNat / 8 % 2 = 1, byte.toNat / 4 % 2 = 1, byte.toNat % 2 = 1⟩, rest)
    else (.none, byte :: rest)

def takeNumber (n : Nat) (bytes : List UInt8) : Option (Nat × List UInt8) :=
  if n ≤ bytes.length then some (ofLittleEndian (bytes.take n), bytes.drop n) else none

def take32 (bytes : List UInt8) : Option (BitVec 32 × List UInt8) :=
  (takeNumber 4 bytes).map fun number => (BitVec.ofNat 32 number.1, number.2)

def take64 (bytes : List UInt8) : Option (BitVec 64 × List UInt8) :=
  (takeNumber 8 bytes).map fun number => (BitVec.ofNat 64 number.1, number.2)

/-- A byte, sign-extended to 32 bits. -/
def take8 (bytes : List UInt8) : Option (BitVec 32 × List UInt8) :=
  (takeNumber 1 bytes).map fun number => ((BitVec.ofNat 8 number.1).signExtend 32, number.2)

/-- An operand: a register, or a place in memory. -/
inductive Operand where
  | reg (r : Register)
  | mem (m : Mem)
deriving DecidableEq

/-- The second operand byte, if the low bits of the base ask for it. -/
def skipSib (low : Nat) (bytes : List UInt8) : Option (List UInt8) :=
  if low = 4 then
    match bytes with
    | [] => none
    | byte :: rest => if byte = 0x24 then some rest else none
  else some bytes

def takeDisp (mode low : Nat) (bytes : List UInt8) : Option (BitVec 32 × List UInt8) :=
  if mode = 0 then (if low = 5 then none else some (0, bytes))
  else if mode = 1 then take8 bytes
  else take32 bytes

/-- The register field and the operand that the operand bytes name. -/
def takeOperand (rex : Rex) : List UInt8 → Option ((Nat × Operand) × List UInt8)
  | [] => none
  | byte :: rest =>
    let mode := byte.toNat / 64
    let field := byte.toNat / 8 % 8
    let low := byte.toNat % 8
    if mode = 3 then some ((field, .reg (.ofBits rex.b low)), rest)
    else
      match skipSib low rest with
      | none => none
      | some rest =>
        match takeDisp mode low rest with
        | none => none
        | some (disp, rest) => some ((field, .mem ⟨.ofBits rex.b low, disp⟩), rest)

/-! ### Instructions -/

/-- An instruction and the bytes behind it. -/
abbrev Decoded := Option (Instruction × List UInt8)

/-- Decodes the operand bytes and makes an instruction of the field and the operand. -/
def withOperand (rex : Rex) (bytes : List UInt8) (onReg : Nat → Register → Option Instruction)
    (onMem : Nat → Mem → Option Instruction) : Decoded :=
  match takeOperand rex bytes with
  | none => none
  | some ((field, .reg r), rest) => (onReg field r).map fun i => (i, rest)
  | some ((field, .mem m), rest) => (onMem field m).map fun i => (i, rest)

/-- Decodes the operand bytes and a constant behind them. -/
def withOperandAnd (rex : Rex) (bytes : List UInt8)
    (constant : List UInt8 → Option (BitVec 32 × List UInt8))
    (onReg : Nat → Register → BitVec 32 → Option Instruction)
    (onMem : Nat → Mem → BitVec 32 → Option Instruction) : Decoded :=
  match takeOperand rex bytes with
  | none => none
  | some ((field, operand), rest) =>
    match constant rest with
    | none => none
    | some (value, rest) =>
      match operand with
      | .reg r => (onReg field r value).map fun i => (i, rest)
      | .mem m => (onMem field m value).map fun i => (i, rest)

/-- Instructions that have no operand of the given kind. -/
def unused {α : Type} (_ : Nat) (_ : α) : Option Instruction := none

/-- Instructions that have no operand of the given kind and a constant. -/
def unusedAnd {α : Type} (_ : Nat) (_ : α) (_ : BitVec 32) : Option Instruction := none

/-- The opcodes of two bytes with 64-bit operands. -/
def decodeWideTwo (rex : Rex) (op : Nat) (rest : List UInt8) : Decoded :=
  if op = 0xAF then
    withOperand rex rest (fun field r => some (.imul (.ofBits rex.r field) r)) unused
  else if op / 16 = 4 then
    match Condition.ofCode? (op % 16) with
    | none => none
    | some condition =>
      withOperand rex rest (fun field r => some (.moveIf condition (.ofBits rex.r field) r)) unused
  else none

/-- The opcodes of one byte with 64-bit operands. -/
def decodeWide (rex : Rex) (op : Nat) (rest : List UInt8) : Decoded :=
  if op = 0x89 then
    withOperand rex rest (fun field r => some (.movRegReg r (.ofBits rex.r field)))
      (fun field m => some (.store m (.ofBits rex.r field)))
  else if op = 0x8B then
    withOperand rex rest unused (fun field m => some (.load (.ofBits rex.r field) m))
  else if op = 0x8D then
    withOperand rex rest unused (fun field m => some (.lea (.ofBits rex.r field) m))
  else if op = 0x85 then
    withOperand rex rest (fun field r => some (.test r (.ofBits rex.r field))) unused
  else if op = 0xC7 then
    withOperandAnd rex rest take32
      (fun field r value => if field = 0 then some (.movRegImm r (value.signExtend 64)) else none)
      (fun field m value => if field = 0 then some (.storeImm m value) else none)
  else if op / 8 = 0xB8 / 8 then
    (take64 rest).map fun number => (.movRegImm (.ofBits rex.b (op % 8)) number.1, number.2)
  else if op = 0x83 then
    withOperandAnd rex rest take8
      (fun field r value => (AluOp.ofCode? field).map fun op => .aluRegImm op r value) unusedAnd
  else if op = 0x81 then
    withOperandAnd rex rest take32
      (fun field r value => (AluOp.ofCode? field).map fun op => .aluRegImm op r value) unusedAnd
  else if op = 0xF7 then
    withOperand rex rest (fun field r => (UnaryOp.ofCode? field).map fun op => .unary op r) unused
  else if op = 0xD3 then
    withOperand rex rest (fun field r => (ShiftOp.ofCode? field).map fun op => .shift op r) unused
  else if op = 0xFF then
    withOperand rex rest (fun field r => if field = 1 then some (.decReg r) else none)
      (fun field m => if field = 0 then some (.incMem m) else none)
  else if op = 0x99 then some (.cqo, rest)
  else if op / 64 = 0 ∧ op % 8 = 1 then
    match AluOp.ofCode? (op / 8) with
    | none => none
    | some alu =>
      withOperand rex rest (fun field r => some (.aluRegReg alu r (.ofBits rex.r field)))
        (fun field m => some (.aluMemReg alu m (.ofBits rex.r field)))
  else if op / 64 = 0 ∧ op % 8 = 3 then
    match AluOp.ofCode? (op / 8) with
    | none => none
    | some alu =>
      withOperand rex rest unused (fun field m => some (.aluRegMem alu (.ofBits rex.r field) m))
  else none

def takeBranch (kind : Branch) (rest : List UInt8) : Decoded :=
  (take32 rest).map fun number => (.branch kind number.1, number.2)

/-- Whether a byte register can be named: four of them need a prefix byte. -/
def namesByte (rex : Rex) (r : Register) : Bool :=
  rex.present || !r.byteNeedsRex

/-- The opcodes of two bytes without 64-bit operands. -/
def decodeNarrowTwo (rex : Rex) (op : Nat) (rest : List UInt8) : Decoded :=
  if op = 0x05 then some (.syscall, rest)
  else if op = 0xB6 then
    withOperand rex rest
      (fun field r =>
        if namesByte rex r then some (.zeroExtendByte (.ofBits rex.r field) r) else none)
      (fun field m => some (.loadByte (.ofBits rex.r field) m))
  else if op / 16 = 8 then
    match Condition.ofCode? (op % 16) with
    | none => none
    | some condition => takeBranch (.jumpIf condition) rest
  else if op / 16 = 9 then
    match Condition.ofCode? (op % 16) with
    | none => none
    | some condition =>
      withOperand rex rest
        (fun field r => if field = 0 ∧ namesByte rex r then some (.setIf condition r) else none)
        unused
  else none

/-- The opcodes of one byte without 64-bit operands. -/
def decodeNarrow (rex : Rex) (op : Nat) (rest : List UInt8) : Decoded :=
  if op / 8 = 0xB8 / 8 then
    (take32 rest).map fun number => (.movReg32Imm (.ofBits rex.b (op % 8)) number.1, number.2)
  else if op = 0x88 then
    withOperand rex rest unused
      (fun field m =>
        let src := Register.ofBits rex.r field
        if namesByte rex src then some (.storeByte m src) else none)
  else if op / 8 = 0x50 / 8 then some (.push (.ofBits rex.b (op % 8)), rest)
  else if op / 8 = 0x58 / 8 then some (.pop (.ofBits rex.b (op % 8)), rest)
  else if op = 0xE9 then takeBranch .jump rest
  else if op = 0xE8 then takeBranch .call rest
  else if op = 0xC3 then some (.ret, rest)
  else none

/-- The instruction whose prefix byte is `rex` and whose opcode stands in front of `bytes`. -/
def decodeOpcode (rex : Rex) (bytes : List UInt8) : Decoded :=
  match bytes with
  | [] => none
  | op :: rest =>
    if op = 0x0F then
      match rest with
      | [] => none
      | op :: rest =>
        if rex.w then decodeWideTwo rex op.toNat rest else decodeNarrowTwo rex op.toNat rest
    else if rex.w then decodeWide rex op.toNat rest
    else decodeNarrow rex op.toNat rest

/-- The instruction at the front of `bytes` and the bytes behind it. -/
def decode (bytes : List UInt8) : Decoded :=
  decodeOpcode (splitRex bytes).1 (splitRex bytes).2

/-! ### Code sequences -/

/-- A piece of a code sequence: its bytes and the instruction they are, if any. -/
structure Piece where
  bytes : List UInt8
  instruction? : Option Instruction
deriving DecidableEq

/-- The bytes that can belong to the first instruction: no instruction has more than fifteen. -/
def window (bytes : List UInt8) : List UInt8 :=
  bytes.take 15

/-- The number of bytes of the piece at the front of a code sequence, which is never zero. -/
def pieceSize (bytes : List UInt8) : Nat :=
  match decode (window bytes) with
  | some (_, rest) => max 1 ((window bytes).length - rest.length)
  | none => 1

theorem pieceSize_pos (bytes : List UInt8) : 0 < pieceSize bytes := by
  unfold pieceSize
  split <;> omega

def firstPiece (bytes : List UInt8) : Piece :=
  ⟨bytes.take (pieceSize bytes), (decode (window bytes)).map (·.1)⟩

/-- A code sequence cut into instructions. -/
def decodeAll (bytes : List UInt8) : List Piece :=
  if bytes = [] then []
  else firstPiece bytes :: decodeAll (bytes.drop (pieceSize bytes))
termination_by bytes.length
decreasing_by
  have hpos := pieceSize_pos bytes
  have hlen : 0 < bytes.length := List.length_pos_iff.2 (by assumption)
  simp only [List.length_drop]
  omega

/-- **No byte is lost.** The pieces of a code sequence make it up. -/
theorem flatMap_bytes_decodeAll (bytes : List UInt8) :
    (decodeAll bytes).flatMap Piece.bytes = bytes := by
  fun_induction decodeAll bytes with
  | case1 => rfl
  | case2 bytes _ ih => simp [ih, firstPiece]

end ForthElf
