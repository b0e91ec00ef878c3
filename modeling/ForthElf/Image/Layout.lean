import ForthElf.Image.Options
import ForthElf.Machine.Bytes

/-!
# Executable files

A file is an ELF header, two program headers and the code.  The first segment maps the whole file for execution, the
second reserves zeroed memory for the data stack and, above it, the variables.

* `Layout.ofOptions` — the two segments for a number of variables;
* `Layout.codeAddress` — the address at which a code offset is loaded;
* `buildImage` — the bytes of the file.
-/

namespace ForthElf

/-- The placement of the two segments. -/
structure Layout where
  codeBase : UInt64
  dataBase : UInt64
  /-- The bytes reserved in the writable segment. -/
  dataSize : UInt64
deriving DecidableEq

def fileHeaderSize : Nat := 64

def programHeaderSize : Nat := 56

/-- The size of all headers: the file offset of the first code byte. -/
def headerSize : Nat := fileHeaderSize + 2 * programHeaderSize

namespace Layout

/-- The layout for a number of variable cells, if stack and variables fit the address space. -/
def ofOptions (o : Options) (cells : Nat) : Except Error Layout :=
  let size := 8 * cells + o.stackSize.toNat
  if o.dataBase.toNat + size ≤ Options.maxAddress then
    .ok ⟨o.codeBase, o.dataBase, UInt64.ofNat size⟩
  else .error (.invalidOptions (.tooManyVariables cells o.stackSize))

def codeAddress (l : Layout) (offset : Nat) : UInt64 :=
  l.codeBase + UInt64.ofNat (headerSize + offset)

end Layout

/-! ### Headers -/

/-- The ELF header of a static 64-bit executable that starts at `entry`. -/
def fileHeader (entry : UInt64) : List UInt8 :=
  [0x7F, 0x45, 0x4C, 0x46, 2, 1, 1, 0] ++ List.replicate 8 0 ++
    littleEndian 2 2 ++ littleEndian 2 0x3E ++ littleEndian 4 1 ++
    littleEndian 8 entry.toNat ++ littleEndian 8 fileHeaderSize ++ littleEndian 8 0 ++
    littleEndian 4 0 ++ littleEndian 2 fileHeaderSize ++ littleEndian 2 programHeaderSize ++
    littleEndian 2 2 ++ littleEndian 2 0 ++ littleEndian 2 0 ++ littleEndian 2 0

/-- The header of a loaded segment that starts at file offset zero. -/
def programHeader (flags : Nat) (address : UInt64) (fileSize memorySize : Nat) : List UInt8 :=
  littleEndian 4 1 ++ littleEndian 4 flags ++ littleEndian 8 0 ++
    littleEndian 8 address.toNat ++ littleEndian 8 address.toNat ++
    littleEndian 8 fileSize ++ littleEndian 8 memorySize ++ littleEndian 8 Options.pageSize

def readExecute : Nat := 5

def readWrite : Nat := 6

/-- The executable file around `code`, started at the offset `entry`. -/
def buildImage (code : List UInt8) (entry : Nat) (l : Layout) : List UInt8 :=
  let fileSize := headerSize + code.length
  fileHeader (l.codeAddress entry) ++
    programHeader readExecute l.codeBase fileSize fileSize ++
    programHeader readWrite l.dataBase 0 l.dataSize.toNat ++
    code

@[simp] theorem length_programHeader (flags : Nat) (address : UInt64) (fileSize memorySize : Nat) :
    (programHeader flags address fileSize memorySize).length = 56 := by
  simp [programHeader]

end ForthElf
