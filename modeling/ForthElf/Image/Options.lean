import ForthElf.Error

/-!
# Options

* `Options` — where code and data go in memory, and how strict the compiler is;
* `Options.validate` — the first fault of a memory layout, if there is one.
-/

namespace ForthElf

/-- The choices for a compilation. -/
structure Options where
  /-- The address of the executable segment. -/
  codeBase : UInt64 := 0x400000
  /-- The address of the writable segment. -/
  dataBase : UInt64 := 0x600000
  /-- The bytes reserved for the data stack. -/
  stackSize : UInt64 := 65536
  /-- Whether unresolved words are passed over with a warning. -/
  bestEffort : Bool := false
  /-- Whether a word may be called ahead of its definition. -/
  forwardRefs : Bool := false
deriving DecidableEq

namespace Options

def pageSize : Nat := 4096

def maxAddress : Nat := 0xFFFFFFFFFFFFFFFF

/-- The upper end of the data stack, or the last address if it would lie beyond. -/
def stackTop (o : Options) : UInt64 :=
  UInt64.ofNat (min (o.dataBase.toNat + o.stackSize.toNat) maxAddress)

/-- The most code bytes that fit between headers of the given size and the data segment. -/
def codeLimit (o : Options) (headerSize : Nat) : Nat :=
  o.dataBase.toNat - o.codeBase.toNat - headerSize

/-- The first fault of the memory layout. -/
def fault? (o : Options) : Option OptionFault :=
  if o.codeBase.toNat % pageSize ≠ 0 then some (.codeBaseUnaligned o.codeBase)
  else if o.dataBase.toNat % pageSize ≠ 0 then some (.dataBaseUnaligned o.dataBase)
  else if o.dataBase ≤ o.codeBase then some (.dataBelowCode o.dataBase o.codeBase)
  else if o.stackSize = 0 ∨ o.stackSize.toNat % 8 ≠ 0 then some (.stackSize o.stackSize)
  else if maxAddress < o.dataBase.toNat + o.stackSize.toNat then
    some (.stackOverflowsAddressSpace o.stackSize o.dataBase)
  else if 0x7FFFFFFF < o.stackTop.toNat then some (.dataEndsTooHigh o.stackTop)
  else none

/-- Refuses a faulty memory layout. -/
def validate (o : Options) : Except Error Unit :=
  match o.fault? with
  | some fault => .error (.invalidOptions fault)
  | none => .ok ()

theorem fault?_default : ({} : Options).fault? = none := by decide

end Options

end ForthElf
