/-!
# Registers

A general register is known by its number.  The low three bits go into an instruction's operand
bytes; the fourth bit, if set, goes into a prefix byte.

* `Register.rax`, `Register.rcx`, … — the registers that emitted code uses;
* `Register.low`, `Register.extended` — the two parts of the number;
* `Register.name`, `Register.name32`, `Register.name8` — the names by operand size.
-/

namespace ForthElf

/-- A general register, given by its number. -/
structure Register where
  id : UInt8
deriving DecidableEq

namespace Register

def rax : Register := ⟨0⟩
def rcx : Register := ⟨1⟩
def rdx : Register := ⟨2⟩
def rbx : Register := ⟨3⟩
def rsp : Register := ⟨4⟩
def rsi : Register := ⟨6⟩
def rdi : Register := ⟨7⟩
def r8 : Register := ⟨8⟩
def r11 : Register := ⟨11⟩

/-- The three bits of the number that go into operand bytes. -/
def low (r : Register) : Nat :=
  r.id.toNat % 8

/-- Whether the register needs the extension bit of a prefix byte. -/
def extended (r : Register) : Bool :=
  8 ≤ r.id.toNat

/-- Whether the low byte of the register can be named only with a prefix byte present. -/
def byteNeedsRex (r : Register) : Bool :=
  4 ≤ r.id.toNat

/-- The register with the given extension bit and low bits. -/
def ofBits (extension : Bool) (low : Nat) : Register :=
  ⟨UInt8.ofNat (8 * extension.toNat + low)⟩

theorem low_lt (r : Register) : r.low < 8 :=
  Nat.mod_lt _ (by decide)

theorem ofBits_low {r : Register} (h : r.id < 16) : ofBits r.extended r.low = r := by
  obtain ⟨id⟩ := r
  have hid : id.toNat < 16 := h
  have hn : 8 * (decide (8 ≤ id.toNat)).toNat + id.toNat % 8 = id.toNat := by
    by_cases h8 : 8 ≤ id.toNat <;> simp [h8] <;> omega
  simp [ofBits, extended, low, hn]

/-! ### Names -/

/-- The entry of a table of sixteen names for the four low bits of a register's number. -/
def nameIn (names : Vector String 16) (r : Register) : String :=
  names.get (Fin.ofNat 16 r.id.toNat)

def name : Register → String :=
  nameIn #v["rax", "rcx", "rdx", "rbx", "rsp", "rbp", "rsi", "rdi",
    "r8", "r9", "r10", "r11", "r12", "r13", "r14", "r15"]

/-- The name as a 32-bit operand. -/
def name32 : Register → String :=
  nameIn #v["eax", "ecx", "edx", "ebx", "esp", "ebp", "esi", "edi",
    "r8d", "r9d", "r10d", "r11d", "r12d", "r13d", "r14d", "r15d"]

/-- The name of the low byte. -/
def name8 : Register → String :=
  nameIn #v["al", "cl", "dl", "bl", "spl", "bpl", "sil", "dil",
    "r8b", "r9b", "r10b", "r11b", "r12b", "r13b", "r14b", "r15b"]

end Register

end ForthElf
