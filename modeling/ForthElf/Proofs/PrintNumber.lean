import ForthElf.Proofs.Words

/-!
# Printing numbers

The routine builds its text from the end in 32 bytes of scratch memory on the return stack.

* `length_decimalDigits_le` — a number of so many digits;
* `Typed buffer text v` — the text so far stands at the end of the buffer;
* `Process.asks_digits` — **the digit loop** puts the digits of a number in front of the text;
* `performs_text` — **the text of a number is built and written**;
* `Process.takes_printNumber` — **the routine pops a cell, prints it and returns**.
-/

namespace ForthElf

open Register

/-! ### Digits -/

theorem length_decimalDigits_le {k n : Nat} (h : n < 10 ^ (k + 1)) : (decimalDigits n).length ≤ k + 1 := by
  induction k generalizing n with
  | zero =>
    rw [decimalDigits, if_pos (by simpa using h)]
    exact Nat.le_refl 1
  | succ k ih =>
    rw [decimalDigits]
    split
    · exact Nat.succ_le_succ (Nat.zero_le _)
    · have hdiv : n / 10 < 10 ^ (k + 1) := Nat.div_lt_of_lt_mul (by rw [Nat.pow_succ] at h; omega)
      have := ih hdiv
      rw [List.length_append, List.length_singleton]
      omega

/-- The registers that stay as they are while a text is built. -/
def SameFrame (reg reg' : Register → BitVec 64) : Prop :=
  reg' rbx = reg rbx ∧ reg' rsp = reg rsp ∧ reg' r8 = reg r8

theorem SameFrame.trans {a b c : Register → BitVec 64} (h : SameFrame a b) (h' : SameFrame b c) : SameFrame a c :=
  ⟨h'.1.trans h.1, h'.2.1.trans h.2.1, h'.2.2.trans h.2.2⟩

theorem View.run_digit (kernel : Kernel) {v : View} (hrcx : v.reg rcx = 10) :
    ∃ v', v.run kernel [.movReg32Imm rdx 0, .unary .div rcx, .aluRegImm .add rdx 48, .decReg rsi] = some v' ∧
      v'.reg rax = v.reg rax / 10 ∧ v'.reg rdx = v.reg rax % 10 + 48 ∧ v'.reg rcx = 10 ∧
      v'.reg rsi = v.reg rsi - 1 ∧ v'.mem = v.mem ∧ SameFrame v.reg v'.reg ∧ v'.output = v.output := by
  have hdivide : (v.setReg rdx 0).execute kernel (.unary .div rcx) =
      some (((v.setReg rdx 0).setReg rax (v.reg rax / 10)).setReg rdx (v.reg rax % 10)) := by
    have hrcx' : (v.setReg rdx 0).core.reg rcx = 10 := hrcx
    have hcore := Machine.divide_eq (m := (v.setReg rdx 0).core) rfl (show (10 : BitVec 64) ≠ 0 by decide)
    show (v.setReg rdx 0).compute kernel (.unary .div rcx) = _
    rw [compute, Machine.execute, Machine.unary, hrcx', hcore]
    rfl
  have hrun : v.run kernel [.movReg32Imm rdx 0, .unary .div rcx, .aluRegImm .add rdx 48, .decReg rsi] =
      ((v.setReg rdx 0).execute kernel (.unary .div rcx)).bind fun v =>
        v.run kernel [.aluRegImm .add rdx 48, .decReg rsi] := rfl
  rw [hrun, hdivide]
  exact ⟨_, rfl, rfl, rfl, hrcx, rfl, rfl, ⟨rfl, rfl, rfl⟩, rfl⟩

/-! ### The parts of the routine -/

namespace PrintNumber

/-- Skips a block unless the number in a register is negative. -/
abbrev unlessNegative (r : Register) (block : List Instruction) : List Instruction :=
  [Instruction.test r r] ++ [Instruction.branch (.jumpIf .notSign) (skipping block)]

/-- Takes the sign from the number, and loads the divisor. -/
abbrev takeMagnitude : List Instruction :=
  unlessNegative rax magnitude ++ (magnitude ++ [Instruction.movReg32Imm rcx 10])

/-- One round of the digit loop: a digit, and back to the next one. -/
abbrev digitRound : List Instruction :=
  putDigit ++ [Instruction.branch (.jumpIf .notEqual) nextDigit]

/-- Puts a minus sign in front of the text of a negative number. -/
abbrev putMinus : List Instruction :=
  unlessNegative r8 (putChar '-') ++ putChar '-'

/-- Builds the text from its end, and writes it. -/
abbrev typeNumber : List Instruction :=
  putChar ' ' ++ (takeMagnitude ++ (digitRound ++ (putMinus ++ write)))

end PrintNumber

/-! ### The buffer -/

/-- A buffer of 32 bytes at `base`, and what the text in it leaves alone. -/
structure Buffer where
  base : Nat
  mem : Memory
  reg : Register → BitVec 64
  output : List UInt8
  rsp_eq : reg rsp = BitVec.ofNat 64 base
  end_le : base + 32 ≤ 2 ^ 64

def Buffer.write (buffer : Buffer) (text : List UInt8) : Buffer :=
  { buffer with output := buffer.output ++ text }

/-- The text so far stands at the end of the buffer, and `rsi` points to it. -/
structure Typed (buffer : Buffer) (text : List UInt8) (v : View) : Prop where
  length_le : text.length ≤ 32
  rsi_eq : v.reg rsi = BitVec.ofNat 64 (buffer.base + 32 - text.length)
  text_eq : v.mem.read (BitVec.ofNat 64 (buffer.base + 32 - text.length)) text.length = text
  same : ∀ x < 2 ^ 64, ¬(buffer.base ≤ x ∧ x < buffer.base + 32) →
    v.mem (BitVec.ofNat 64 x) = buffer.mem (BitVec.ofNat 64 x)
  kept : SameFrame buffer.reg v.reg
  output_eq : v.output = buffer.output

namespace Typed

variable {buffer : Buffer} {text : List UInt8} {v v' : View}

theorem congr (h : Typed buffer text v) (hrsi : v'.reg rsi = v.reg rsi) (hmem : v'.mem = v.mem)
    (hreg : SameFrame v.reg v'.reg) (houtput : v'.output = v.output) : Typed buffer text v' := by
  refine ⟨h.length_le, hrsi.trans h.rsi_eq, ?_, fun x hx hout => ?_, h.kept.trans hreg, houtput.trans h.output_eq⟩
  · rw [hmem]
    exact h.text_eq
  · rw [hmem]
    exact h.same x hx hout

theorem aim (h : Typed buffer text v) (hrsi : v'.reg rsi = v.reg rsi - 1) (hmem : v'.mem = v.mem)
    (hreg : SameFrame v.reg v'.reg) (houtput : v'.output = v.output) :
    Typed buffer text (v'.setReg rsi (v'.reg rsi + 1)) := by
  refine h.congr ?_ hmem hreg houtput
  show v'.reg rsi + 1 = v.reg rsi
  rw [hrsi, BitVec.sub_add_cancel]

theorem put (h : Typed buffer text v) (hlength : text.length < 32) (byte : UInt8)
    (hrsi : v'.reg rsi = v.reg rsi - 1) (hreg : SameFrame v.reg v'.reg)
    (hmem : v'.mem = v.mem.set (v'.reg rsi) byte) (houtput : v'.output = v.output) :
    Typed buffer (byte :: text) v' := by
  have hend := buffer.end_le
  have hrsi' : v'.reg rsi = BitVec.ofNat 64 (buffer.base + 32 - (text.length + 1)) := by
    rw [hrsi, h.rsi_eq, BitVec.sub_eq_iff_eq_add, Memory.ofNat_add_one]
    congr 1
    omega
  have hset : ∀ x < 2 ^ 64, x ≠ buffer.base + 32 - (text.length + 1) →
      v'.mem (BitVec.ofNat 64 x) = v.mem (BitVec.ofNat 64 x) := by
    intro x hx hne
    rw [hmem, hrsi']
    exact Memory.set_of_ne _ _ (Memory.ofNat_ne_ofNat (by omega) hx hne)
  have hnext : buffer.base + 32 - (text.length + 1) + 1 = buffer.base + 32 - text.length := by omega
  refine ⟨hlength, hrsi', ?_, fun x hx hout => ?_, h.kept.trans hreg, houtput.trans h.output_eq⟩
  · have hfirst : v'.mem (BitVec.ofNat 64 (buffer.base + 32 - (text.length + 1))) = byte := by
      rw [hmem, hrsi', Memory.set_self]
    rw [List.length_cons, Memory.read, Memory.ofNat_add_one, hnext, hfirst,
      Memory.read_congr fun i hi => hset _ (by omega) (by omega), h.text_eq]
  · rw [hset x hx (by omega)]
    exact h.same x hx hout

end Typed

/-! ### The pieces of the routine -/

namespace Process

variable {P : Process} {p : Nat} {buffer : Buffer} {text : List UInt8}

/-- The process has no cells on its stacks: memory is seen as it is. -/
def Bare (P : Process) : Prop :=
  ∀ s x, ¬(P.areas.area s).Contains x

theorem Bare.mem_eq (hbare : P.Bare) {v : View} {m : Machine} (h : Stands P.code P.areas v p m) : m.mem = v.mem := by
  funext x
  have hsame := h.looks.other x.toNat x.isLt fun s => hbare s _
  rwa [BitVec.ofNat_toNat, BitVec.setWidth_eq] at hsame

/-- The text so far, and what is known of the registers. -/
def Typing (buffer : Buffer) (text : List UInt8) (R : (Register → BitVec 64) → Prop) (v : View) : Prop :=
  Typed buffer text v ∧ R v.reg

/-- The same while `rsi` already points to the byte in front of the text. -/
def Aiming (buffer : Buffer) (text : List UInt8) (R : (Register → BitVec 64) → Prop) (v : View) : Prop :=
  Typed buffer text (v.setReg rsi (v.reg rsi + 1)) ∧ R v.reg

variable {R : (Register → BitVec 64) → Prop}

theorem asks_storeByte (hbare : P.Bare) {src : Register} (hi : Placed P.instructions p [.storeByte (.at rsi) src])
    (hlength : text.length < 32) {byte : UInt8} (hbyte : ∀ reg, R reg → UInt8.ofNat (reg src).toNat = byte) :
    P.Asks [] p (Aiming buffer text R) (p + codeSize [.storeByte (.at rsi) src])
      (Typing buffer (byte :: text) R) := by
  intro m v hm ⟨htyped, hR⟩
  have hend := buffer.end_le
  have hrsi : v.reg rsi = BitVec.ofNat 64 (buffer.base + 32 - (text.length + 1)) := by
    have hnext : v.reg rsi + 1 = BitVec.ofNat 64 (buffer.base + 32 - text.length) := htyped.rsi_eq
    have hbase : buffer.base + 32 - text.length = buffer.base + 32 - (text.length + 1) + 1 := by omega
    rw [hbase, ← Memory.ofNat_add_one] at hnext
    rw [← BitVec.add_sub_cancel (v.reg rsi) 1, hnext, BitVec.add_sub_cancel]
  have haddress : v.reg (Mem.at rsi).base + (Mem.at rsi).disp.signExtend 64 =
      BitVec.ofNat 64 (buffer.base + 32 - (text.length + 1)) := by
    rw [← hrsi]
    exact BitVec.add_zero _
  obtain ⟨m', hr, hm'⟩ := hm.storeByte P.consists hi haddress (by omega) fun s => hbare s _
  refine ⟨m', _, hr, hm', htyped.put hlength byte ?_ ⟨rfl, rfl, rfl⟩ ?_ rfl, hR⟩
  · exact (BitVec.add_sub_cancel (v.reg rsi) 1).symm
  · dsimp only
    rw [hbyte _ hR, hrsi]
    rfl

theorem asks_putChar (hbare : P.Bare) {c : Char} (hblock : Placed P.instructions p (PrintNumber.putChar c))
    (hlength : text.length < 32) {byte : UInt8} {n : BitVec 64}
    (hbyte : UInt8.ofNat ((BitVec.ofNat 32 c.toNat).setWidth 64).toNat = byte) :
    P.Asks [] p (Typing buffer text fun reg => reg rax = n) (p + codeSize (PrintNumber.putChar c))
      (Typing buffer (byte :: text) fun reg => reg rax = n) := by
  have hsplit : PrintNumber.putChar c =
      [Instruction.decReg rsi, .movReg32Imm rcx (BitVec.ofNat 32 c.toNat)] ++
        [Instruction.storeByte (.at rsi) rcx] := rfl
  rw [hsplit] at hblock
  rw [hsplit, add_codeSize_append]
  let R := fun reg : Register → BitVec 64 => reg rax = n ∧ reg rcx = (BitVec.ofNat 32 c.toNat).setWidth 64
  refine Asks.trans (asks_run (R := Aiming buffer text R) hblock.left ?_ fun v hv => ?_) ?_
  · exact fun v _ s hs => by cases s <;> exact absurd rfl hs
  · obtain ⟨htyped, hrax⟩ := hv
    exact ⟨_, rfl, htyped.aim rfl rfl ⟨rfl, rfl, rfl⟩ rfl, hrax, rfl⟩
  · refine (asks_storeByte hbare hblock.right hlength fun reg hreg => ?_).weaken fun v hv => ⟨hv.1, hv.2.1⟩
    rw [hreg.2, hbyte]

/-- The number that is left and the divisor. -/
def Dividing (n : Nat) (reg : Register → BitVec 64) : Prop :=
  reg rax = BitVec.ofNat 64 n ∧ reg rcx = 10

theorem asks_lastDigit (hbare : P.Bare)
    (hblock : Placed P.instructions p
      ([Instruction.movReg32Imm rdx 0, .unary .div rcx, .aluRegImm .add rdx 48, .decReg rsi] ++
        [Instruction.storeByte (.at rsi) rdx]))
    {n : Nat} (hn : n < 2 ^ 64) (hlength : text.length < 32) :
    P.Asks [] p (Typing buffer text (Dividing n)) (p + 17)
      (Typing buffer (UInt8.ofNat (48 + n % 10) :: text) (Dividing (n / 10))) := by
  let R := fun reg : Register → BitVec 64 => Dividing (n / 10) reg ∧ reg rdx = BitVec.ofNat 64 (48 + n % 10)
  refine Asks.trans (asks_run (R := Aiming buffer text R) hblock.left ?_ fun v hv => ?_) ?_
  · exact fun v _ s hs => by cases s <;> exact absurd rfl hs
  · obtain ⟨htyped, hrax, hrcx⟩ := hv
    obtain ⟨v', hrun, hrax', hrdx', hrcx', hrsi', hmem, hframe, houtput⟩ := v.run_digit P.kernel hrcx
    have hten : (10 : BitVec 64).toNat = 10 := rfl
    have hquotient : BitVec.ofNat 64 n / 10 = BitVec.ofNat 64 (n / 10) := by
      apply BitVec.eq_of_toNat_eq
      rw [BitVec.toNat_udiv, BitVec.toNat_ofNat, BitVec.toNat_ofNat, hten]
      omega
    have hremainder : BitVec.ofNat 64 n % 10 = BitVec.ofNat 64 (n % 10) := by
      apply BitVec.eq_of_toNat_eq
      rw [BitVec.toNat_umod, BitVec.toNat_ofNat, BitVec.toNat_ofNat, hten]
      omega
    refine ⟨v', hrun, htyped.aim hrsi' hmem hframe houtput, ⟨?_, hrcx'⟩, ?_⟩
    · rw [hrax', hrax, hquotient]
    · rw [hrdx', hrax, hremainder, Nat.add_comm]
      exact BitVec.ofNat_add_ofNat _ _
  · refine (asks_storeByte hbare hblock.right hlength fun reg hreg => ?_).weaken fun v hv => ⟨hv.1, hv.2.1⟩
    rw [hreg.2, BitVec.toNat_ofNat, Nat.mod_eq_of_lt (by omega)]

/-- One round of the digit loop. -/
theorem asks_digit (hbare : P.Bare)
    (hblock : Placed P.instructions p PrintNumber.digitRound) {n : Nat} (hn : n < 2 ^ 64) (hlength : text.length < 32) :
    P.Asks [] p (Typing buffer text (Dividing n)) (if n < 10 then p + 26 else p)
      (Typing buffer (UInt8.ofNat (48 + n % 10) :: text) (Dividing (n / 10))) := by
  have hsplit : PrintNumber.digitRound =
      [Instruction.movReg32Imm rdx 0, .unary .div rcx, .aluRegImm .add rdx 48, .decReg rsi] ++
        [Instruction.storeByte (.at rsi) rdx] ++
        ([Instruction.test rax rax] ++ [Instruction.branch (.jumpIf .notEqual) PrintNumber.nextDigit]) := rfl
  rw [hsplit] at hblock
  refine (asks_lastDigit hbare hblock.left hn hlength).trans ?_
  have hback : ((p + 17 : Nat) + codeSize [.test rax rax] + (Branch.jumpIf .notEqual).size : Int) +
      PrintNumber.nextDigit.toInt = p := by
    have hsizes : (17 + codeSize [.test rax rax] + (Branch.jumpIf .notEqual).size : Int) +
        PrintNumber.nextDigit.toInt = 0 := by decide
    omega
  rw [← ite_not]
  refine asks_runJumpIf hblock.right hback (fun v _ s hs => by cases s <;> exact absurd rfl hs) fun v hv => ?_
  obtain ⟨htyped, hrax, hrcx⟩ := hv
  refine ⟨_, rfl, ?_, htyped.congr rfl rfl ⟨rfl, rfl, rfl⟩ rfl, hrax, hrcx⟩
  refine (congrArg (!·) (Condition.holds_equal_test (v.reg rax))).trans ?_
  rw [decide_not, hrax]
  refine congrArg (!·) ?_
  rw [Bool.eq_iff_iff, beq_iff_eq, decide_eq_true_iff, ← BitVec.toNat_inj, BitVec.toNat_ofNat]
  show _ = 0 ↔ _
  omega

/-- **The digit loop** puts the digits of a number in front of the text. -/
theorem asks_digits (hbare : P.Bare) (hblock : Placed P.instructions p PrintNumber.digitRound) {n : Nat}
    (hn : n < 2 ^ 64) (hlength : (decimalDigits n).length + text.length ≤ 32) :
    P.Asks [] p (Typing buffer text (Dividing n)) (p + 26) (Typed buffer (decimalDigits n ++ text)) := by
  induction n using Nat.strongRecOn generalizing text with
  | ind n ih =>
    rw [decimalDigits] at hlength ⊢
    by_cases hlast : n < 10
    · rw [if_pos hlast] at hlength ⊢
      rw [List.length_singleton] at hlength
      have hround : P.Asks [] p (Typing buffer text (Dividing n)) _ _ := asks_digit hbare hblock hn (by omega)
      rw [if_pos hlast, Nat.mod_eq_of_lt hlast] at hround
      exact hround.weaken fun v hv => hv.1
    · rw [if_neg hlast] at hlength ⊢
      rw [List.length_append, List.length_singleton] at hlength
      have hround : P.Asks [] p (Typing buffer text (Dividing n)) _ _ := asks_digit hbare hblock hn (by omega)
      rw [if_neg hlast] at hround
      rw [List.append_assoc, List.singleton_append]
      refine hround.trans (ih (n / 10) (by omega) (by omega) ?_)
      rw [List.length_cons]
      omega

/-- Code for a negative number only. -/
theorem asks_unlessNegative {r : Register} {block : List Instruction} {Q : View → Prop} {a : Cell}
    (hblock : Placed P.instructions p (PrintNumber.unlessNegative r block))
    (hsize : (skipping block).toInt = codeSize block) (hr : ∀ v, Q v → v.reg r = a)
    (hflags : ∀ v flags, Q v → Q { v with flags := flags }) :
    P.Asks [] p Q (if a.toInt < 0 then p + 9 else p + 9 + codeSize block) Q := by
  have htest : codeSize [.test r r] = 3 := by cases r; rfl
  have hend : (p + codeSize [.test r r] + (Branch.jumpIf .notSign).size : Int) + (skipping block).toInt =
      (p + 9 + codeSize block : Nat) := by
    have hbranch : (Branch.jumpIf .notSign).size = 6 := rfl
    omega
  rw [← ite_not]
  have hplace : p + 9 = p + codeSize [.test r r] + (Branch.jumpIf .notSign).size := by rw [htest]; rfl
  rw [hplace] at hend ⊢
  refine asks_runJumpIf hblock hend (fun v _ s hs => absurd (by cases s <;> rfl) hs) fun v hv => ?_
  refine ⟨_, rfl, ?_, hflags v _ hv⟩
  refine (Condition.holds_notSign_test (v.reg r)).trans ?_
  rw [hr v hv, decide_not]
  rfl

theorem asks_magnitude (hblock : Placed P.instructions p PrintNumber.takeMagnitude) {a : Cell} :
    P.Asks [] p (Typing buffer text fun reg => reg rax = a) (p + 17)
      (Typing buffer text (Dividing a.toInt.natAbs)) := by
  have hlt := BitVec.toInt_lt (x := a)
  have hle := BitVec.le_toInt (x := a)
  have hsign := asks_unlessNegative (P := P) (Q := Typing buffer text fun reg => reg rax = a) hblock.left rfl
    (fun v hv => hv.2) fun v flags hv => ⟨hv.1.congr rfl rfl ⟨rfl, rfl, rfl⟩ rfl, hv.2⟩
  let R := fun reg : Register → BitVec 64 => reg rax = BitVec.ofNat 64 a.toInt.natAbs
  have habs : P.Asks [] p (Typing buffer text fun reg => reg rax = a) (p + 12) (Typing buffer text R) := by
    refine hsign.trans ?_
    by_cases hneg : a.toInt < 0
    · rw [if_pos hneg]
      refine asks_run hblock.right.left (fun v _ s hs => by cases s <;> exact absurd rfl hs) fun v hv => ?_
      refine ⟨_, rfl, hv.1.congr rfl rfl ⟨rfl, rfl, rfl⟩ rfl, ?_⟩
      show -v.reg rax = _
      rw [hv.2, ← BitVec.ofInt_natCast, Int.ofNat_natAbs_of_nonpos (by omega), BitVec.ofInt_neg, BitVec.ofInt_toInt]
    · rw [if_neg hneg]
      refine Asks.weaken .refl fun v hv => ⟨hv.1, ?_⟩
      show v.reg rax = _
      rw [hv.2, ← BitVec.ofInt_natCast, Int.natAbs_of_nonneg (by omega), BitVec.ofInt_toInt]
  refine habs.trans ?_
  refine asks_run hblock.right.right (fun v _ s hs => by cases s <;> exact absurd rfl hs) fun v hv => ?_
  exact ⟨_, rfl, hv.1.congr rfl rfl ⟨rfl, rfl, rfl⟩ rfl, hv.2, rfl⟩

theorem asks_minus (hbare : P.Bare) (hblock : Placed P.instructions p PrintNumber.putMinus)
    (hlength : text.length < 32) {a : Cell} (ha : buffer.reg r8 = a) :
    P.Asks [] p (Typed buffer text) (p + 19)
      (Typed buffer ((if a.toInt < 0 then [45] else []) ++ text)) := by
  refine (asks_unlessNegative (Q := Typed buffer text) hblock.left rfl (fun v hv => hv.kept.2.2.trans ha) ?_).trans ?_
  · exact fun v flags hv => hv.congr rfl rfl ⟨rfl, rfl, rfl⟩ rfl
  · by_cases hneg : a.toInt < 0
    · rw [if_pos hneg, if_pos hneg]
      intro m v hm hv
      obtain ⟨m', v', hr, hm', hv'⟩ :=
        asks_putChar (n := v.reg rax) hbare hblock.right hlength rfl m v hm ⟨hv, rfl⟩
      exact ⟨m', v', hr, hm', hv'.1⟩
    · rw [if_neg hneg, if_neg hneg]
      exact .refl

theorem asks_write (hbare : P.Bare) (hblock : Placed P.instructions p PrintNumber.write) :
    P.Asks [⟨1, 1, text⟩] p (Typed buffer text) (p + codeSize PrintNumber.write) (Typed (buffer.write text) text) := by
  have hsplit : PrintNumber.write =
      [Instruction.lea rdx ⟨rsp, 32⟩, .aluRegReg .sub rdx rsi, .movReg32Imm rax 1, .movReg32Imm rdi 1] ++
        [Instruction.syscall] := rfl
  rw [hsplit] at hblock ⊢
  intro m v hm hv
  obtain ⟨v₁, hrun, hrdx, hrax, hrdi, hrsi, hmem, hframe, houtput⟩ :
      ∃ v₁, v.run P.kernel [.lea rdx ⟨rsp, 32⟩, .aluRegReg .sub rdx rsi, .movReg32Imm rax 1, .movReg32Imm rdi 1] =
          some v₁ ∧
        v₁.reg rdx = v.reg rsp + 32 - v.reg rsi ∧ v₁.reg rax = 1 ∧ v₁.reg rdi = 1 ∧ v₁.reg rsi = v.reg rsi ∧
        v₁.mem = v.mem ∧ SameFrame v.reg v₁.reg ∧ v₁.output = v.output :=
    ⟨_, rfl, rfl, rfl, rfl, rfl, rfl, ⟨rfl, rfl, rfl⟩, rfl⟩
  have hv₁ : Typed buffer text v₁ := hv.congr hrsi hmem hframe houtput
  obtain ⟨m₁, hm₁, h₁⟩ := hm.run P.consists hblock.left hrun fun s => (hm.looks.holds s).room
  -- The length of the text is the distance from its start to the end of the buffer.
  have hlength : (v₁.reg rdx).toNat = text.length := by
    have hle := hv.length_le
    have hend := buffer.end_le
    have hsum : v.reg rsp + 32 = BitVec.ofNat 64 (buffer.base + 32 - text.length) + BitVec.ofNat 64 text.length := by
      rw [hv.kept.2.1, buffer.rsp_eq, BitVec.ofNat_add_ofNat, Nat.sub_add_cancel (by omega), ← BitVec.ofNat_add_ofNat]
      rfl
    rw [hrdx, hsum, hv.rsi_eq, BitVec.add_comm, BitVec.add_sub_cancel, BitVec.toNat_ofNat,
      Nat.mod_eq_of_lt (by omega)]
  have htext : m₁.mem.read (v₁.reg rsi) (v₁.reg rdx).toNat = text := by
    rw [hbare.mem_eq h₁, hlength, hv₁.rsi_eq]
    exact hv₁.text_eq
  obtain ⟨v₂, m₂, hm₂, h₂, -, houtput', hmem', hreg⟩ := h₁.write P.consists hblock.right hrax hrdi htext
  refine ⟨m₂, v₂, hm₁.trans hm₂, ?_, hv₁.length_le, ?_, ?_, fun x hx hout => ?_, ?_, ?_⟩
  · rw [add_codeSize_append]
    exact h₂
  · rw [hreg rsi (by decide)]
    exact hv₁.rsi_eq
  · rw [hmem']
    exact hv₁.text_eq
  · rw [hmem']
    exact hv₁.same x hx hout
  · exact hv₁.kept.trans ⟨hreg rbx (by decide), hreg rsp (by decide), hreg r8 (by decide)⟩
  · rw [houtput', hv₁.output_eq]
    rfl

/-- The text is built and written. -/
theorem asks_text (hbare : P.Bare) (hblock : Placed P.instructions p PrintNumber.typeNumber)
    {a : Cell} (ha : buffer.reg r8 = a) :
    P.Asks [⟨1, 1, a.printed⟩] p (Typing buffer [] fun reg => reg rax = a) (p + 92)
      (Typed (buffer.write a.printed) a.printed) := by
  have habs : a.toInt.natAbs ≤ 2 ^ 63 := by
    have hlt := BitVec.toInt_lt (x := a)
    have hle := BitVec.le_toInt (x := a)
    omega
  have hdigits : (decimalDigits a.toInt.natAbs).length ≤ 18 + 1 := length_decimalDigits_le (by omega)
  have hprinted : a.printed = (if a.toInt < 0 then [45] else []) ++ (decimalDigits a.toInt.natAbs ++ [32]) :=
    List.append_assoc ..
  rw [hprinted]
  have hspace : ([] : List UInt8).length < 32 := by decide
  refine (asks_putChar hbare hblock.left hspace rfl).trans ?_
  refine (asks_magnitude hblock.right.left).trans ?_
  refine (asks_digits hbare hblock.right.right.left (by omega) ?_).trans ?_
  · rw [List.length_singleton]
    omega
  refine (asks_minus hbare hblock.right.right.right.left ?_ ha).trans ?_
  · rw [List.length_append]
    exact Nat.lt_of_le_of_lt (Nat.add_le_add_right hdigits _) (by decide)
  exact asks_write hbare hblock.right.right.right.right

end Process

def bareAreas (reg : Register → BitVec 64) : Areas where
  area := fun s => ⟨(reg s.pointer).toNat, 0, Nat.zero_le _, (reg s.pointer).isLt⟩
  apart := fun _ _ _ h => absurd h.2 (Nat.not_lt.mpr h.1)

/-- Any machine may be looked at as if there were nothing on its stacks. -/
theorem stands_bareAreas {code : LoadedCode} {p : Nat} {m : Machine} (hip : m.ip = code.address p) :
    Stands code (bareAreas m.reg) ⟨m.reg, m.flags, fun _ => [], m.mem, m.output⟩ p m := by
  refine ⟨⟨rfl, rfl, rfl, fun s => ⟨Nat.le_refl 0, ?_, fun i value hi => ?_⟩, fun _ _ _ => rfl⟩, hip⟩
  · show m.reg s.pointer = BitVec.ofNat 64 ((m.reg s.pointer).toNat - 0)
    rw [Nat.sub_zero, BitVec.ofNat_toNat, BitVec.setWidth_eq]
  · cases hi

/-- A number waits to be printed. -/
def Waiting (a : Cell) (reg : Register → BitVec 64) : Prop :=
  reg rax = a ∧ reg r8 = a ∧ reg rsi = reg rsp + 32

/-- **The text is built in 32 bytes of scratch memory, and written.** -/
theorem performs_text (kernel : Kernel) {code : LoadedCode} {instructions : List Instruction} {p : Nat} {m : Machine}
    {a : Cell} (hcode : code.Consists instructions) (hblock : Placed instructions p PrintNumber.typeNumber)
    (hip : m.ip = code.address p) (hwaiting : Waiting a m.reg) (hend : (m.reg rsp).toNat + 32 ≤ 2 ^ 64) :
    ∃ m', Performs kernel code m [⟨1, 1, a.printed⟩] m' ∧ m'.ip = code.address (p + 92) ∧
      m'.reg rbx = m.reg rbx ∧ m'.reg rsp = m.reg rsp ∧ m'.output = m.output ++ a.printed ∧
      ∀ x < 2 ^ 64, ¬((m.reg rsp).toNat ≤ x ∧ x < (m.reg rsp).toNat + 32) →
        m'.mem (BitVec.ofNat 64 x) = m.mem (BitVec.ofNat 64 x) := by
  obtain ⟨hrax, hr8, hrsi⟩ := hwaiting
  let P : Process := ⟨kernel, code, bareAreas m.reg, instructions, hcode⟩
  have hbare : P.Bare := fun _ _ h => absurd h.2 (Nat.not_lt.mpr h.1)
  have hbase : m.reg rsp = BitVec.ofNat 64 (m.reg rsp).toNat := by rw [BitVec.ofNat_toNat, BitVec.setWidth_eq]
  let buffer : Buffer := ⟨(m.reg rsp).toNat, m.mem, m.reg, m.output, hbase, hend⟩
  have hempty : Process.Typing buffer [] (fun reg => reg rax = a)
      ⟨m.reg, m.flags, fun _ => [], m.mem, m.output⟩ := by
    refine ⟨⟨Nat.zero_le _, ?_, rfl, fun _ _ _ => rfl, ⟨rfl, rfl, rfl⟩, rfl⟩, hrax⟩
    show m.reg rsi = BitVec.ofNat 64 ((m.reg rsp).toNat + 32)
    rw [← BitVec.ofNat_add_ofNat, ← hbase, hrsi]
    rfl
  have ha : buffer.reg r8 = a := hr8
  obtain ⟨m', v', hr, h', htyped⟩ := Process.asks_text hbare hblock ha m _ (stands_bareAreas hip) hempty
  refine ⟨m', hr, h'.ip_eq, ?_, ?_, ?_, ?_⟩
  · rw [h'.looks.reg]
    exact htyped.kept.1
  · rw [h'.looks.reg]
    exact htyped.kept.2.1
  · rw [h'.looks.output]
    exact htyped.output_eq
  · intro x hx hout
    rw [hbare.mem_eq h']
    exact htyped.same x hx hout

namespace Process

variable {P : Process} {p : Nat}

/-- Four cells of the return stack are scratch memory. -/
def Lent (data ret : List (Option Cell)) (output : List UInt8) (v : View) : Prop :=
  v.cells = Stack.pair data (List.replicate 4 none ++ ret) ∧ v.output = output

/-- The text is built in cells of the return stack. -/
theorem keeps_textOnStack (hblock : Placed P.instructions p PrintNumber.typeNumber)
    {a : Cell} {data ret : List (Option Cell)} {output : List UInt8} :
    P.Keeps p (fun v => Lent data ret output v ∧ Waiting a v.reg) (p + 92) (Lent data ret (output ++ a.printed)) := by
  rintro mem m v h ⟨⟨⟨hcells, houtput⟩, hwaiting⟩, hmem⟩
  have hret : v.cells .ret = List.replicate 4 none ++ ret := by rw [hcells, Stack.pair]
  rw [← h.looks.reg] at hwaiting
  have hend : (m.reg rsp).toNat + 32 ≤ 2 ^ 64 := by
    have htop := (h.looks.holds .ret).toNat_pointer_add
    have hlt := (P.areas.area .ret).top_lt
    rw [hret, List.length_append, List.length_replicate, Stack.pointer] at htop
    rw [h.looks.reg]
    omega
  obtain ⟨m', hr, hip, hrbx, hrsp, houtput', hsame⟩ :=
    performs_text P.kernel P.consists hblock h.ip_eq hwaiting hend
  have hreg : ∀ t : Stack, m'.reg t.pointer = v.reg t.pointer := by
    intro t
    rw [← h.looks.reg]
    cases t with
    | data => exact hrbx
    | ret => exact hrsp
  rw [h.looks.reg] at hsame
  have hlooks := h.looks.scratch (n := 4) hret hreg hsame
  refine ⟨m', _, hr.reaches, ⟨hlooks, hip⟩, ⟨hcells, ?_⟩, hmem⟩
  show m'.output = _
  rw [houtput', h.looks.output, houtput]

variable {q target : Nat} {a : Cell} {data ret : List Cell} {output : List UInt8}

/-- **The routine pops a cell, prints it and returns.** -/
theorem takes_printNumber (hblock : Placed P.instructions q printNumber) (hroom : ret.length + 5 ≤ P.room .ret) :
    P.Takes q ⟨.spilled, a :: data, P.code.address target :: ret, output⟩ target
      ⟨.spilled, data, ret, output ++ a.printed⟩ := by
  have hsplit : printNumber = PrintNumber.start ++ (PrintNumber.typeNumber ++
      ([Instruction.aluRegImm .add rsp 32] ++ [Instruction.ret])) := rfl
  rw [hsplit] at hblock
  let cells := (P.code.address target :: ret).map some
  refine Keeps.trans (R := fun v => Lent (data.map some) cells output v ∧ Waiting a v.reg) ?_ <|
    (keeps_textOnStack hblock.right.left).trans <|
    Keeps.trans (R := Status.Matches ⟨.spilled, data, P.code.address target :: ret, output ++ a.printed⟩) ?_ <|
    takes_ret hblock.right.right.right
  · refine keeps_run hblock.left (HasRoom.fits fun s hs => ?_) fun v hv => ?_
    · cases s with
      | data => exact absurd rfl hs
      | ret => exact hroom
    · obtain ⟨reg, flags, mem, rfl⟩ := hv.exists_of_spilled
      exact ⟨_, rfl, ⟨Status.Matches.cells_eq _, rfl⟩, rfl, rfl, rfl⟩
  · refine keeps_run hblock.right.right.left (fun v _ s hs => by cases s <;> exact absurd rfl hs) fun v hv => ?_
    obtain ⟨reg, flags, cells', mem, output'⟩ := v
    obtain ⟨hcells, houtput⟩ := hv
    dsimp only at hcells houtput
    subst hcells houtput
    exact ⟨_, rfl, rfl, rfl, rfl⟩

end Process

end ForthElf
