import ForthElf.Proofs.PrintNumber
import ForthElf.Proofs.Steps

/-!
# What a call of the number printing routine does

* `printed_eq` — a cell is printed as the signed decimal number it stands for, and a space;
* `Machine.Calls` — a machine at a call of the routine, with a number on its data stack;
* `prints_number` — **a call writes the number once, drops it and comes back**, and changes no memory but 40 bytes below
  the return stack.
-/

namespace ForthElf

open Register

/-! ### Decimal numbers -/

/-- The bytes of a text of ASCII characters. -/
def asciiBytes (text : String) : List UInt8 :=
  text.toList.map fun c => UInt8.ofNat c.toNat

theorem asciiBytes_append (a b : String) : asciiBytes (a ++ b) = asciiBytes a ++ asciiBytes b := by
  rw [asciiBytes, String.toList_append, List.map_append]
  rfl

theorem ofNat_digitChar {d : Nat} (h : d < 10) : UInt8.ofNat d.digitChar.toNat = UInt8.ofNat (48 + d) := by
  have hall : ∀ d < 10, UInt8.ofNat (Nat.digitChar d).toNat = UInt8.ofNat (48 + d) := by decide
  exact hall d h

theorem decimalDigits_eq (n : Nat) : decimalDigits n = asciiBytes (toString n) := by
  have hdigits : asciiBytes (toString n) = (Nat.toDigits 10 n).map fun c => UInt8.ofNat c.toNat := by
    rw [Nat.toString_eq_repr, Nat.repr_eq_ofList_toDigits, asciiBytes, String.toList_ofList]
  rw [hdigits]
  clear hdigits
  induction n using Nat.strongRecOn with
  | ind n ih =>
    rw [decimalDigits, Nat.toDigits_eq_if (by decide)]
    split
    · next hlt => rw [List.map_singleton, ofNat_digitChar hlt]
    · next hge =>
      rw [List.map_append, List.map_singleton, ih (n / 10) (by omega), ofNat_digitChar (Nat.mod_lt _ (by decide))]

/-- **A cell is printed as the signed decimal number it stands for, and a space.** -/
theorem printed_eq (c : Cell) : c.printed = asciiBytes (toString c.toInt ++ " ") := by
  have hnumber :
      (if c.toInt < 0 then [45] else []) ++ decimalDigits c.toInt.natAbs = asciiBytes (toString c.toInt) := by
    rw [decimalDigits_eq]
    cases c.toInt with
    | ofNat n => rfl
    | negSucc n =>
      rw [if_pos (Int.negSucc_lt_zero n)]
      exact (asciiBytes_append "-" _).symm
  rw [Cell.printed, hnumber, asciiBytes_append]
  rfl

/-! ### The call -/

/-- The machine is at a call of the number printing routine at `q`, with the number `value` uppermost in memory, apart
from the cell that the call will push, and with five free cells on the return stack. -/
structure Machine.Calls (m : Machine) (code : LoadedCode) (instructions : List Instruction) (p q : Nat) (value : Cell) :
    Prop where
  consists : code.Consists instructions
  routine : Placed instructions q printNumber
  call : ∃ d : BitVec 32, Placed instructions p [.branch .call d] ∧ (p + Branch.call.size : Int) + d.toInt = q
  ip : m.ip = code.address p
  number : m.mem.cell (m.reg rbx) = value
  free : 40 ≤ (m.reg rsp).toNat
  apart : (m.reg rbx).toNat + 8 ≤ (m.reg rsp).toNat - 8 ∨ (m.reg rsp).toNat ≤ (m.reg rbx).toNat

section Call

variable {code : LoadedCode} {instructions : List Instruction} {p q : Nat} {d : BitVec 32} {m : Machine}

theorem performs_call (kernel : Kernel) (hcode : code.Consists instructions) (hip : m.ip = code.address p)
    (hi : Placed instructions p [.branch .call d]) (hd : (p + Branch.call.size : Int) + d.toInt = q) :
    ∃ m', Performs kernel code m [] m' ∧ m'.ip = code.address q ∧ m'.reg rbx = m.reg rbx ∧
      m'.reg rsp = m.reg rsp - 8 ∧
      m'.mem = m.mem.setCell (m.reg rsp - 8) (code.address (p + Branch.call.size)) ∧ m'.output = m.output := by
  have hstep : m.step kernel code = .running (((m.jump (code.address (p + Branch.call.size))).pushCell
      (code.address (p + Branch.call.size))).jump (code.address (p + Branch.call.size) + d.signExtend 64)) := by
    rw [Machine.step, hip, LoadedCode.fetch?_address hcode hi]
    rfl
  exact ⟨_, .quiet hcode hip hi (by simp) hstep, code.address_add_signExtend hd, rfl, rfl, rfl, rfl⟩

theorem performs_ret (kernel : Kernel) (hcode : code.Consists instructions) (hip : m.ip = code.address p)
    (hi : Placed instructions p [.ret]) :
    ∃ m', Performs kernel code m [] m' ∧ m'.ip = m.mem.cell (m.reg rsp) ∧ m'.reg rbx = m.reg rbx ∧
      m'.reg rsp = m.reg rsp + 8 ∧ m'.mem = m.mem ∧ m'.output = m.output := by
  have hstep : m.step kernel code = .running (m.dropCell.jump m.topCell) := by
    rw [Machine.step, hip, LoadedCode.fetch?_address hcode hi]
    rfl
  have htop : m.topCell = m.mem.cell (m.reg rsp) := rfl
  generalize m.topCell = target at hstep htop
  exact ⟨_, .quiet hcode hip hi (by simp) hstep, htop, rfl, rfl, rfl, rfl⟩

theorem performs_start (kernel : Kernel) (hcode : code.Consists instructions) (hip : m.ip = code.address q)
    (hblock : Placed instructions q PrintNumber.start) :
    ∃ m', Performs kernel code m [] m' ∧ m'.ip = code.address (q + codeSize PrintNumber.start) ∧
      Waiting (m.mem.cell (m.reg rbx)) m'.reg ∧ m'.reg rbx = m.reg rbx + 8 ∧ m'.reg rsp = m.reg rsp - 32 ∧
      m'.mem = m.mem ∧ m'.output = m.output := by
  obtain ⟨m', hm', hrax, hr8, hrsi, hrbx, hrsp, hmem, houtput⟩ :
      ∃ m', m.perform kernel code q PrintNumber.start = some m' ∧ m'.reg rax = m.mem.cell (m.reg rbx + 0#64) ∧
        m'.reg r8 = m.mem.cell (m.reg rbx + 0#64) ∧ m'.reg rsi = m'.reg rsp + 32 ∧ m'.reg rbx = m.reg rbx + 8 ∧
        m'.reg rsp = m.reg rsp - 32 ∧ m'.mem = m.mem ∧ m'.output = m.output :=
    ⟨_, rfl, rfl, rfl, rfl, rfl, rfl, rfl, rfl⟩
  obtain ⟨hperforms, hend⟩ := Performs.block hcode hip hblock (by decide) hm'
  rw [BitVec.add_zero] at hrax hr8
  exact ⟨m', hperforms, hend, ⟨hrax, hr8, hrsi⟩, hrbx, hrsp, hmem, houtput⟩

theorem performs_finish (kernel : Kernel) (hcode : code.Consists instructions) (hip : m.ip = code.address q)
    (hblock : Placed instructions q PrintNumber.finish) :
    ∃ m', Performs kernel code m [] m' ∧ m'.ip = m.mem.cell (m.reg rsp + 32) ∧ m'.reg rbx = m.reg rbx ∧
      m'.reg rsp = m.reg rsp + 32 + 8 ∧ m'.mem = m.mem ∧ m'.output = m.output := by
  have hsplit : PrintNumber.finish = [Instruction.aluRegImm .add rsp 32] ++ [Instruction.ret] := rfl
  rw [hsplit] at hblock
  obtain ⟨m₁, hm₁, hrbx, hrsp, hmem, houtput⟩ :
      ∃ m₁, m.perform kernel code q [.aluRegImm .add rsp 32] = some m₁ ∧ m₁.reg rbx = m.reg rbx ∧
        m₁.reg rsp = m.reg rsp + 32 ∧ m₁.mem = m.mem ∧ m₁.output = m.output :=
    ⟨_, rfl, rfl, rfl, rfl, rfl⟩
  obtain ⟨hperforms, hend⟩ := Performs.block hcode hip hblock.left (by decide) hm₁
  obtain ⟨m₂, hm₂, hip₂, hrbx₂, hrsp₂, hmem₂, houtput₂⟩ := performs_ret kernel hcode hend hblock.right
  refine ⟨m₂, hperforms.trans hm₂, ?_, hrbx₂.trans hrbx, ?_, hmem₂.trans hmem, houtput₂.trans houtput⟩
  · rw [hip₂, hmem, hrsp]
  · rw [hrsp₂, hrsp]

end Call

/-- **A call of the routine that every program starts with writes the number once, drops it and comes back**, and
changes no memory but 40 bytes below the return stack. -/
theorem prints_number (kernel : Kernel) {code : LoadedCode} {instructions : List Instruction} {p q : Nat} {m : Machine}
    {value : Cell} (h : m.Calls code instructions p q value) :
    (∀ options, (Compiler.initial options).code.Holds printNumber) ∧
    ∃ m', Performs kernel code m [⟨1, 1, asciiBytes (toString value.toInt ++ " ")⟩] m' ∧
      m'.ip = code.address (p + Branch.call.size) ∧ m'.reg rbx = m.reg rbx + 8 ∧ m'.reg rsp = m.reg rsp ∧
      m'.output = m.output ++ asciiBytes (toString value.toInt ++ " ") ∧
      ∀ x, ¬((m.reg rsp).toNat - 40 ≤ x.toNat ∧ x.toNat < (m.reg rsp).toNat) → m'.mem x = m.mem x := by
  obtain ⟨d, hcall, hd⟩ := h.call
  have hfree := h.free
  have hapart := h.apart
  have hsplit : printNumber = PrintNumber.start ++ (PrintNumber.typeNumber ++ PrintNumber.finish) := rfl
  have hroutine := h.routine
  rw [hsplit] at hroutine
  rw [← printed_eq]
  -- The call pushes the address behind it, which leaves the number alone.
  obtain ⟨m₁, hm₁, hip₁, hrbx₁, hrsp₁, hmem₁, houtput₁⟩ := performs_call kernel h.consists h.ip hcall hd
  have haddress : m.reg rsp - 8 = BitVec.ofNat 64 ((m.reg rsp).toNat - 8) := by bv_omega
  rw [haddress] at hrsp₁ hmem₁
  have hpushed : ∀ x : BitVec 64, x.toNat < (m.reg rsp).toNat - 8 ∨ (m.reg rsp).toNat ≤ x.toNat →
      m₁.mem x = m.mem x := by
    intro x hx
    have hout : m₁.mem (BitVec.ofNat 64 x.toNat) = m.mem (BitVec.ofNat 64 x.toNat) := by
      rw [hmem₁]
      exact Memory.setCell_of_outside _ (by omega) x.isLt (by omega)
    rwa [BitVec.ofNat_toNat, BitVec.setWidth_eq] at hout
  have hnumber : m₁.mem.cell (m₁.reg rbx) = value := by
    have hrbx : m.reg rbx = BitVec.ofNat 64 (m.reg rbx).toNat := by rw [BitVec.ofNat_toNat, BitVec.setWidth_eq]
    rw [hrbx₁, ← h.number, hrbx]
    refine Memory.cell_congr fun i hi => hpushed _ ?_
    rw [BitVec.toNat_ofNat]
    omega
  -- The routine takes the number and writes it from the 32 bytes below that address.
  obtain ⟨m₂, hm₂, hip₂, hwaiting, hrbx₂, hrsp₂, hmem₂, houtput₂⟩ := performs_start kernel h.consists hip₁ hroutine.left
  rw [hnumber] at hwaiting
  have hbuffer : (m₂.reg rsp).toNat = (m.reg rsp).toNat - 40 := by
    rw [hrsp₂, hrsp₁]
    bv_omega
  obtain ⟨m₃, hm₃, hip₃, hrbx₃, hrsp₃, houtput₃, hsame₃⟩ :=
    performs_text kernel h.consists hroutine.right.left hip₂ hwaiting (by omega)
  have hsame : ∀ x : BitVec 64, x.toNat < (m.reg rsp).toNat - 40 ∨ (m.reg rsp).toNat - 8 ≤ x.toNat →
      m₃.mem x = m₁.mem x := by
    intro x hx
    have hout := hsame₃ x.toNat x.isLt (by omega)
    rwa [BitVec.ofNat_toNat, BitVec.setWidth_eq, hmem₂] at hout
  -- It returns to the address that was pushed.
  obtain ⟨m₄, hm₄, hip₄, hrbx₄, hrsp₄, hmem₄, houtput₄⟩ := performs_finish kernel h.consists hip₃ hroutine.right.right
  have hback : m₃.reg rsp + 32 = BitVec.ofNat 64 ((m.reg rsp).toNat - 8) := by
    rw [hrsp₃, hrsp₂, hrsp₁, BitVec.sub_add_cancel]
  have htop : m₃.mem.cell (m₃.reg rsp + 32) = m₁.mem.cell (m₃.reg rsp + 32) := by
    rw [hback]
    refine Memory.cell_congr fun i hi => hsame _ ?_
    rw [BitVec.toNat_ofNat]
    omega
  refine ⟨Compiler.holds_initial, m₄, hm₁.trans (hm₂.trans (hm₃.trans hm₄)), ?_, ?_, ?_, ?_, ?_⟩
  · rw [hip₄, htop, hback, hmem₁, Memory.cell_setCell_self _ (by omega)]
  · rw [hrbx₄, hrbx₃, hrbx₂, hrbx₁]
  · rw [hrsp₄, hback]
    bv_omega
  · rw [houtput₄, houtput₃, houtput₂, houtput₁]
  · intro x hx
    rw [hmem₄, hsame x (by omega), hpushed x (by omega)]

/-- The least number, printed by a call right behind the routine. -/
theorem prints_number_least : ∃ (code : LoadedCode) (m : Machine),
    m.Calls code (printNumber ++ [.branch .call (BitVec.ofInt 32 (-(codeSize printNumber + 5)))])
      (codeSize printNumber) 0
      (BitVec.intMin 64) ∧
    ∀ kernel, ∃ m', Performs kernel code m [⟨1, 1, asciiBytes "-9223372036854775808 "⟩] m' ∧
      m'.ip = code.address (codeSize printNumber + 5) ∧ m'.reg rbx = m.reg rbx + 8 ∧ m'.reg rsp = m.reg rsp := by
  let instructions := printNumber ++ [.branch .call (BitVec.ofInt 32 (-(codeSize printNumber + 5)))]
  let code : LoadedCode := ⟨0x4000B0, assemble instructions⟩
  let m : Machine := ⟨code.address (codeSize printNumber), fun r => if r = rsp then 0x7fffffffe000 else 0x500000, {},
    Memory.setCell (fun _ => 0) 0x500000 (BitVec.intMin 64), []⟩
  have hm : m.Calls code instructions (codeSize printNumber) 0 (BitVec.intMin 64) := by
    refine ⟨⟨rfl, by decide, by decide⟩, ⟨[], _, rfl, rfl⟩, ⟨_, ⟨printNumber, [], rfl, rfl⟩, by decide⟩, rfl,
      ?_, ?_, ?_⟩
    · exact Memory.cell_setCell_self _ (by decide)
    · decide
    · exact .inl (by decide)
  refine ⟨code, m, hm, fun kernel => ?_⟩
  obtain ⟨-, m', hm', hip, hrbx, hrsp, -⟩ := prints_number kernel hm
  exact ⟨m', hm', hip, hrbx, hrsp⟩

end ForthElf
