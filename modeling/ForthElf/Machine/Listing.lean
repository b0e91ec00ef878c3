import ForthElf.Machine.Decode
import ForthElf.Text.Digits

/-!
# Listings

* `Instruction.text next i` — the instruction `i` in assembler notation, where `next` is the address of the
  instruction behind it;
* `Listing.lines base labels code` — the lines of a listing: labels and located pieces of code in order;
* `listing base labels code` — the listing as a text.
-/

namespace ForthElf

open Text

/-! ### Operands -/

/-- A number: one digit as it is, any other in upper case hexadecimal. -/
def numberText (n : Nat) : String :=
  if n < 10 then hex n else "0x" ++ upperHex n

/-- A place in memory: the displacement is signed and left out if zero. -/
def Mem.text (m : Mem) : String :=
  let disp := m.disp.toInt
  let part :=
    if disp = 0 then ""
    else if 0 < disp then "+" ++ numberText disp.natAbs
    else "-" ++ numberText disp.natAbs
  "[" ++ m.base.name ++ part ++ "]"

/-- A constant sign-extended to 64 bits, shown without sign. -/
def extendedText (value : BitVec 32) : String :=
  numberText (value.signExtend 64).toNat

/-- A branch target: one digit as it is, any other with sixteen hexadecimal digits. -/
def targetText (next : UInt64) (disp : BitVec 32) : String :=
  let target := (next.toBitVec + disp.signExtend 64).toNat
  if target < 10 then hex target else "0x" ++ (hexPadded 16 target).toUpper

/-! ### Instructions -/

/-- A mnemonic in a column of eight, and the operands behind it. -/
def statement (mnemonic : String) (operands : List String) : String :=
  String.ofList (mnemonic.toList.rightpad 8 ' ') ++ ",".intercalate operands

/-- An instruction in assembler notation; `next` is the address behind it. -/
def Instruction.text (next : UInt64) : Instruction → String
  | .movRegReg dst src => statement "mov" [dst.name, src.name]
  | .movRegImm dst value => statement "mov" [dst.name, numberText value.toNat]
  | .movReg32Imm dst value => statement "mov" [dst.name32, numberText value.toNat]
  | .load dst src => statement "mov" [dst.name, src.text]
  | .store dst src => statement "mov" [dst.text, src.name]
  | .storeImm dst value => statement "mov" ["qword " ++ dst.text, extendedText value]
  | .storeByte dst src => statement "mov" [dst.text, src.name8]
  | .loadByte dst src => statement "movzx" [dst.name32, "byte " ++ src.text]
  | .zeroExtendByte dst src => statement "movzx" [dst.name32, src.name8]
  | .lea dst src => statement "lea" [dst.name, src.text]
  | .push src => statement "push" [src.name]
  | .pop dst => statement "pop" [dst.name]
  | .aluRegReg op dst src => statement op.mnemonic [dst.name, src.name]
  | .aluRegImm op dst value => statement op.mnemonic [dst.name, extendedText value]
  | .aluMemReg op dst src => statement op.mnemonic [dst.text, src.name]
  | .aluRegMem op dst src => statement op.mnemonic [dst.name, src.text]
  | .incMem dst => statement "inc" ["qword " ++ dst.text]
  | .decReg dst => statement "dec" [dst.name]
  | .imul dst src => statement "imul" [dst.name, src.name]
  | .cqo => "cqo"
  | .unary op dst => statement op.mnemonic [dst.name]
  | .shift op dst => statement op.mnemonic [dst.name, "cl"]
  | .test left right => statement "test" [left.name, right.name]
  | .setIf condition dst => statement ("set" ++ condition.suffix) [dst.name8]
  | .moveIf condition dst src => statement ("cmov" ++ condition.suffix) [dst.name, src.name]
  | .branch .jump disp => statement "jmp" [targetText next disp]
  | .branch (.jumpIf condition) disp =>
    statement ("j" ++ condition.suffix) ["near " ++ targetText next disp]
  | .branch .call disp => statement "call" [targetText next disp]
  | .ret => "ret"
  | .syscall => "syscall"

/-! ### Lines -/

structure Label where
  offset : Nat
  name : String
deriving DecidableEq

namespace Listing

inductive Line where
  | label (name : String)
  | code (address : UInt64) (piece : Piece)
deriving DecidableEq

/-- The lines for pieces of code, the first of which has the given offset. -/
def linesFrom (base : UInt64) (labels : List Label) : Nat → List Piece → List Line
  | _, [] => []
  | offset, piece :: rest =>
    (labels.filter (·.offset == offset)).map (fun label => .label label.name) ++
      .code (base + UInt64.ofNat offset) piece ::
        linesFrom base labels (offset + piece.bytes.length) rest

/-- The lines for code loaded at `base`: the labels of an offset stand before its instruction. -/
def lines (base : UInt64) (labels : List Label) (code : List UInt8) : List Line :=
  linesFrom base labels 0 (decodeAll code)

def Line.text : Line → String
  | .label name => name ++ ":\n"
  | .code address piece =>
    let next := address + UInt64.ofNat piece.bytes.length
    let statement :=
      match piece.instruction? with
      | some instruction => instruction.text next
      | none => "(bad)"
    let bytes := String.ofList ((bytesHex piece.bytes).toList.rightpad 24 ' ')
    "  " ++ hexPadded 8 address.toNat ++ "  " ++ bytes ++ " " ++ statement ++ "\n"

end Listing

/-- The listing of code loaded at `base`. -/
def listing (base : UInt64) (labels : List Label) (code : List UInt8) : String :=
  String.join ((Listing.lines base labels code).map Listing.Line.text)

end ForthElf
