import ForthElf.Machine.Step
import ForthElf.Proofs.Cells

/-!
# The two stacks of a machine

Compiled code uses memory as two stacks of cells, to which `rbx` and `rsp` point.

* `View` — a machine with its stacks as lists of cells, and `View.execute` what an instruction does to it;
* `Areas` — the parts of memory that belong to the stacks;
* `Shows areas v m` — the machine `m` looks like the view `v`;
* `Shows.execute` — **an instruction does to a machine what it does to the view of it**.
-/

namespace ForthElf

open Register

/-! ### Instructions on registers -/

/-- The registers that an instruction may change, if it looks at registers and flags only. -/
def Instruction.writes? : Instruction → Option (List Register)
  | .movRegReg dst _ | .movRegImm dst _ | .movReg32Imm dst _ | .zeroExtendByte dst _ | .lea dst _
  | .aluRegReg _ dst _ | .aluRegImm _ dst _ | .decReg dst | .imul dst _ | .shift _ dst | .setIf _ dst
  | .moveIf _ dst _ | .unary .not dst | .unary .neg dst => some [dst]
  | .unary .div _ | .unary .idiv _ => some [rax, rdx]
  | .cqo => some [rdx]
  | .test _ _ => some []
  | _ => none

namespace Machine

variable {kernel : Kernel}

theorem alu_eq (m : Machine) (op : AluOp) (a b : BitVec 64) (keep : Machine → BitVec 64 → Machine) :
    m.alu op a b keep =
      if op = .cmp then m.setFlags (op.eval a b).1 (op.eval a b).2
      else keep (m.setFlags (op.eval a b).1 (op.eval a b).2) (op.eval a b).1 := rfl

theorem ip_alu (m : Machine) (op : AluOp) (a b : BitVec 64) {keep : Machine → BitVec 64 → Machine}
    (hkeep : ∀ n result, (keep n result).ip = n.ip) : (m.alu op a b keep).ip = m.ip := by
  rw [alu_eq]
  split
  · rfl
  · rw [hkeep]
    rfl

section Registers

variable {m core core' : Machine} (hreg : m.reg = core.reg)
include hreg

theorem quotient_congr {c : Prop} [Decidable c] {quotient remainder : BitVec 64}
    (h : (if c then .fault else .running ((core.setReg rax quotient).setReg rdx remainder)) = Next.running core') :
    (if c then .fault else .running ((m.setReg rax quotient).setReg rdx remainder)) =
        Next.running { m with reg := core'.reg } ∧
      core'.flags = core.flags ∧ ∀ r, r ∉ [rax, rdx] → core'.reg r = core.reg r := by
  split at h
  · cases h
  · next hc =>
    rw [if_neg hc]
    obtain rfl := Next.running.inj h
    refine ⟨?_, rfl, fun r hr => ?_⟩
    · simp only [setReg, hreg]
    · simp only [List.mem_cons, List.not_mem_nil, or_false, not_or] at hr
      rw [reg_setReg_of_ne _ _ hr.2, reg_setReg_of_ne _ _ hr.1]

/-- An instruction on registers does the same to all machines with these registers and flags. -/
theorem execute_of_writes? {i : Instruction} {rs : List Register} (hi : i.writes? = some rs)
    (hflags : m.flags = core.flags) (h : core.execute kernel i = .running core') :
    m.execute kernel i = .running { m with reg := core'.reg, flags := core'.flags } ∧
      ∀ r, r ∉ rs → core'.reg r = core.reg r := by
  obtain ⟨ip, reg, flags, mem, output⟩ := m
  obtain ⟨ip', reg', flags', mem', output'⟩ := core
  dsimp only at hreg hflags
  subst hreg hflags
  cases i with
  | unary op dst =>
    cases op with
    | not | neg =>
      cases hi
      cases h
      exact ⟨rfl, fun r hr => by simp_all [setReg, setFlags]⟩
    | div | idiv =>
      cases hi
      obtain ⟨hm, hf, hr⟩ := @quotient_congr ⟨ip, reg, flags, mem, output⟩
        ⟨ip', reg, flags, mem', output'⟩ _ rfl _ _ _ _ h
      exact ⟨by rw [hf]; exact hm, hr⟩
  | moveIf condition dst src | shift op dst =>
    cases hi
    simp only [execute, shift] at h ⊢
    split at h <;> cases h <;> simp_all [setReg, setFlags]
  | aluRegReg op dst src | aluRegImm op dst src =>
    cases hi
    cases h
    cases op <;> simp_all [execute, alu, AluOp.eval, setReg, setFlags]
  | movRegReg dst src | movRegImm dst value | movReg32Imm dst value | zeroExtendByte dst src | lea dst src
  | imul dst src | setIf condition dst | decReg dst | cqo | test left right =>
    cases hi
    cases h
    simp_all [execute, alu, AluOp.eval, multiply, setReg, setFlags, setLowByte, addressOf]
  | _ => cases hi

end Registers

end Machine

/-! ### Views -/

inductive Stack where
  | data
  | ret
deriving DecidableEq

namespace Stack

def pointer : Stack → Register
  | .data => rbx
  | .ret => rsp

def ofPointer? (r : Register) : Option Stack :=
  if r = rbx then some .data else if r = rsp then some .ret else none

theorem ofPointer?_eq_some_iff {r : Register} {s : Stack} : ofPointer? r = some s ↔ r = s.pointer := by
  unfold ofPointer?
  constructor
  · intro h
    split at h
    · next hr => cases h; exact hr
    · split at h
      · next hr => cases h; exact hr
      · cases h
  · rintro rfl
    cases s <;> rfl

theorem pointer_inj {s t : Stack} (h : s.pointer = t.pointer) : s = t := by
  have hs := ofPointer?_eq_some_iff.mpr (rfl : s.pointer = s.pointer)
  rw [h, ofPointer?_eq_some_iff.mpr rfl] at hs
  cases hs
  rfl

end Stack

def Register.isPointer (r : Register) : Bool :=
  (Stack.ofPointer? r).isSome

theorem Register.ne_pointer {r : Register} (h : r.isPointer = false) (s : Stack) : s.pointer ≠ r := by
  intro hr
  rw [isPointer, Stack.ofPointer?_eq_some_iff.mpr hr.symm] at h
  cases h

/-- A machine with its stacks as lists of cells, their tops first; a cell that is `none` may be anything. -/
structure View where
  reg : Register → BitVec 64
  flags : Flags
  cells : Stack → List (Option Cell)
  /-- The memory apart from the stacks. -/
  mem : Memory
  output : List UInt8

/-- The number of cells that a distance in bytes covers. -/
def cellIndex? (disp : BitVec 32) : Option Nat :=
  if disp.msb = false ∧ disp.toNat % 8 = 0 then some (disp.toNat / 8) else none

namespace View

/-- The machine without its stacks. -/
def core (v : View) : Machine :=
  ⟨0, v.reg, v.flags, v.mem, v.output⟩

def setReg (v : View) (r : Register) (value : BitVec 64) : View :=
  { v with reg := fun q => if q = r then value else v.reg q }

def setFlags (v : View) (result : BitVec 64) (overflow : Bool) : View :=
  { v with flags := .ofResult result overflow }

def setCells (v : View) (s : Stack) (cells : List (Option Cell)) : View :=
  { v with cells := fun t => if t = s then cells else v.cells t }

def cellAt? (v : View) (operand : Mem) : Option Cell :=
  (Stack.ofPointer? operand.base).bind fun s =>
    (cellIndex? operand.disp).bind fun i => (v.cells s)[i]?.join

def setCellAt? (v : View) (operand : Mem) (value : Cell) : Option View :=
  (Stack.ofPointer? operand.base).bind fun s =>
    (cellIndex? operand.disp).bind fun i =>
      if i < (v.cells s).length then some (v.setCells s ((v.cells s).set i (some value))) else none

/-- An operation with two operands, as `Machine.alu`. -/
def alu (v : View) (op : AluOp) (a b : BitVec 64) (keep : View → BitVec 64 → Option View) : Option View :=
  let v' := v.setFlags (op.eval a b).1 (op.eval a b).2
  if op = .cmp then some v' else keep v' (op.eval a b).1

/-- An instruction on registers. -/
def compute (kernel : Kernel) (v : View) (i : Instruction) : Option View :=
  match v.core.execute kernel i with
  | .running m => some { v with reg := m.reg, flags := m.flags }
  | _ => none

/-- The cells of a stack when its pointer is moved. -/
def moved (cells : List (Option Cell)) (n : Nat) : AluOp → Option (List (Option Cell))
  | .add => if n ≤ cells.length then some (cells.drop n) else none
  | .sub => some (List.replicate n none ++ cells)
  | _ => none

/-- What an instruction does to a view, unless it is a branch, a system call, or an access outside the stacks. -/
def execute (kernel : Kernel) (v : View) : Instruction → Option View
  | .load dst src => if dst.isPointer then none else (v.cellAt? src).map (v.setReg dst)
  | .store dst src => v.setCellAt? dst (v.reg src)
  | .storeImm dst value => v.setCellAt? dst (value.signExtend 64)
  | .push src => some ((v.setReg rsp (v.reg rsp - 8)).setCells .ret (some (v.reg src) :: v.cells .ret))
  | .pop dst =>
    if dst.isPointer then none
    else match v.cells .ret with
      | some a :: cells => some (((v.setReg rsp (v.reg rsp + 8)).setCells .ret cells).setReg dst a)
      | _ => none
  | .aluMemReg op dst src =>
    (v.cellAt? dst).bind fun a => v.alu op a (v.reg src) fun v result => v.setCellAt? dst result
  | .aluRegMem op dst src =>
    if dst.isPointer then none
    else (v.cellAt? src).bind fun b => v.alu op (v.reg dst) b fun v result => some (v.setReg dst result)
  | .incMem dst => (v.cellAt? dst).bind fun a => v.alu .add a 1 fun v result => v.setCellAt? dst result
  | .aluRegImm op dst value =>
    match Stack.ofPointer? dst with
    | none => v.compute kernel (.aluRegImm op dst value)
    | some s =>
      (v.compute kernel (.aluRegImm op dst value)).bind fun v' =>
        (cellIndex? value).bind fun n => (moved (v.cells s) n op).map (v'.setCells s)
  | i =>
    match i.writes? with
    | some rs => if rs.any Register.isPointer then none else v.compute kernel i
    | none => none

end View

/-! ### Machines and views -/

structure Areas where
  area : Stack → Area
  apart : ∀ s t x, (area s).Contains x → (area t).Contains x → s = t

/-- The machine looks like the view, with its stacks in the given areas. -/
structure Shows (areas : Areas) (v : View) (m : Machine) : Prop where
  reg : m.reg = v.reg
  flags : m.flags = v.flags
  output : m.output = v.output
  holds : ∀ s, (areas.area s).Holds m.mem (v.reg s.pointer) (v.cells s)
  other : ∀ x < 2 ^ 64, (∀ s, ¬(areas.area s).Contains x) → m.mem (BitVec.ofNat 64 x) = v.mem (BitVec.ofNat 64 x)

/-! ### Instructions -/

/-- The cells that an instruction pushes on a stack. -/
def Instruction.pushes (s : Stack) : Instruction → Nat
  | .push _ => if s = .ret then 1 else 0
  | .aluRegImm .sub dst value => if dst = s.pointer then value.toNat / 8 else 0
  | _ => 0

theorem signExtend_of_cellIndex? {disp : BitVec 32} {i : Nat} (h : cellIndex? disp = some i) :
    disp.signExtend 64 = BitVec.ofNat 64 (8 * i) := by
  unfold cellIndex? at h
  split at h
  · next hdisp =>
    obtain ⟨hmsb, haligned⟩ := hdisp
    cases h
    have hdisp : 8 * (disp.toNat / 8) = disp.toNat := by omega
    rw [BitVec.signExtend_eq_setWidth_of_msb_false hmsb, hdisp, BitVec.ofNat_toNat]
  · cases h

namespace View

theorem setCells_setCells (v : View) (s : Stack) (a b : List (Option Cell)) :
    (v.setCells s a).setCells s b = v.setCells s b := by
  unfold setCells
  congr 1
  funext t
  dsimp only
  split <;> rfl

theorem exists_of_cellAt? {v : View} {operand : Mem} {value : Cell} (h : v.cellAt? operand = some value) :
    ∃ s i, operand.base = s.pointer ∧ operand.disp.signExtend 64 = BitVec.ofNat 64 (8 * i) ∧
      (v.cells s)[i]? = some (some value) := by
  unfold cellAt? at h
  obtain ⟨s, hs, h⟩ := Option.bind_eq_some_iff.mp h
  obtain ⟨i, hi, h⟩ := Option.bind_eq_some_iff.mp h
  exact ⟨s, i, Stack.ofPointer?_eq_some_iff.mp hs, signExtend_of_cellIndex? hi, Option.join_eq_some_iff.mp h⟩

theorem exists_of_setCellAt? {v v' : View} {operand : Mem} {value : Cell} (h : v.setCellAt? operand value = some v') :
    ∃ s i, operand.base = s.pointer ∧ operand.disp.signExtend 64 = BitVec.ofNat 64 (8 * i) ∧
      i < (v.cells s).length ∧ v' = v.setCells s ((v.cells s).set i (some value)) := by
  unfold setCellAt? at h
  obtain ⟨s, hs, h⟩ := Option.bind_eq_some_iff.mp h
  obtain ⟨i, hi, h⟩ := Option.bind_eq_some_iff.mp h
  split at h
  · next hlt =>
    cases h
    exact ⟨s, i, Stack.ofPointer?_eq_some_iff.mp hs, signExtend_of_cellIndex? hi, hlt, rfl⟩
  · cases h

end View

namespace Shows

variable {areas : Areas} {v v' : View} {m : Machine} {kernel : Kernel}

theorem setFlags (h : Shows areas v m) (result : BitVec 64) (overflow : Bool) :
    Shows areas (v.setFlags result overflow) (m.setFlags result overflow) :=
  ⟨h.reg, rfl, h.output, h.holds, h.other⟩

theorem setReg (h : Shows areas v m) {r : Register} (hr : r.isPointer = false) (value : BitVec 64) :
    Shows areas (v.setReg r value) (m.setReg r value) := by
  refine ⟨?_, h.flags, h.output, fun s => ?_, h.other⟩
  · simp only [Machine.setReg, View.setReg, h.reg]
  · simp only [View.setReg, if_neg (Register.ne_pointer hr s)]
    exact h.holds s

theorem write (h : Shows areas v m) {s : Stack} {mem : Memory} {cells : List (Option Cell)}
    (hholds : (areas.area s).Holds mem (v.reg s.pointer) cells)
    (hsame : ∀ x < 2 ^ 64, ¬(areas.area s).Contains x → mem (BitVec.ofNat 64 x) = m.mem (BitVec.ofNat 64 x)) :
    Shows areas (v.setCells s cells) { m with mem := mem } := by
  refine ⟨h.reg, h.flags, h.output, fun t => ?_, fun x hx hout => ?_⟩
  · by_cases hts : t = s
    · subst hts
      simpa only [View.setCells, if_true] using hholds
    · simp only [View.setCells, if_neg hts]
      refine (h.holds t).congr fun x hx => hsame x ?_ fun hs => hts (areas.apart t s x hx hs)
      exact Nat.lt_trans hx.2 (areas.area t).top_lt
  · exact (hsame x hx (hout s)).trans (h.other x hx hout)

theorem cellAt_eq (h : Shows areas v m) {operand : Mem} {value : Cell} (hv : v.cellAt? operand = some value) :
    m.cellAt operand = value := by
  obtain ⟨s, i, hbase, hdisp, hi⟩ := View.exists_of_cellAt? hv
  rw [Machine.cellAt, Machine.addressOf, hbase, hdisp, h.reg]
  exact (h.holds s).cell_eq hi

theorem setCellAt (h : Shows areas v m) {operand : Mem} {value : Cell}
    (hv : v.setCellAt? operand value = some v') : Shows areas v' (m.setCellAt operand value) := by
  obtain ⟨s, i, hbase, hdisp, hi, rfl⟩ := View.exists_of_setCellAt? hv
  have haddress : m.addressOf operand = v.reg s.pointer + BitVec.ofNat 64 (8 * i) := by
    rw [Machine.addressOf, hbase, hdisp, h.reg]
  rw [Machine.setCellAt, haddress]
  exact h.write ((h.holds s).setCell hi value) fun x hx hout => (h.holds s).setCell_of_outside hi value hx hout

theorem movePointer (h : Shows areas v m) {s : Stack} {pointer : BitVec 64} {cells : List (Option Cell)}
    (hholds : (areas.area s).Holds m.mem pointer cells) :
    Shows areas ((v.setReg s.pointer pointer).setCells s cells) (m.setReg s.pointer pointer) := by
  refine ⟨?_, h.flags, h.output, fun t => ?_, h.other⟩
  · simp only [Machine.setReg, View.setReg, View.setCells, h.reg]
  · by_cases hts : t = s
    · subst hts
      simpa only [View.setReg, View.setCells, Machine.setReg, if_true] using hholds
    · have hne : t.pointer ≠ s.pointer := fun heq => hts (Stack.pointer_inj heq)
      simp only [View.setReg, View.setCells, if_neg hts, if_neg hne]
      exact h.holds t

theorem pushCell (h : Shows areas v m) (hroom : (v.cells .ret).length < (areas.area .ret).cells) (value : Cell) :
    Shows areas ((v.setReg rsp (v.reg rsp - 8)).setCells .ret (some value :: v.cells .ret)) (m.pushCell value) := by
  have hmoved := h.movePointer (s := .ret) ((h.holds .ret).push (n := 1) hroom)
  have hlength : 0 < (((v.setReg rsp (v.reg rsp - 8)).setCells .ret (none :: v.cells .ret)).cells .ret).length :=
    Nat.succ_pos _
  have hwrite := hmoved.write ((hmoved.holds .ret).setCell hlength value) fun x hx hout =>
    (hmoved.holds .ret).setCell_of_outside hlength value hx hout
  rw [View.setCells_setCells] at hwrite
  have hwrite' : Shows areas ((v.setReg rsp (v.reg rsp - 8)).setCells .ret (some value :: v.cells .ret))
      { m.setReg rsp (v.reg rsp - 8) with mem := m.mem.setCell (v.reg rsp - 8 + 0#64) value } := hwrite
  rw [BitVec.add_zero] at hwrite'
  rw [Machine.pushCell, h.reg]
  exact hwrite'

theorem popCell (h : Shows areas v m) {a : Cell} {cells : List (Option Cell)}
    (hcells : v.cells .ret = some a :: cells) :
    m.topCell = a ∧ Shows areas ((v.setReg rsp (v.reg rsp + 8)).setCells .ret cells) m.dropCell := by
  have hholds := h.holds .ret
  constructor
  · have htop := hholds.cell_eq (i := 0) (by rw [hcells]; rfl)
    rwa [BitVec.add_zero, ← h.reg] at htop
  · have hdrop := hholds.drop (n := 1) (by rw [hcells]; exact Nat.succ_le_succ (Nat.zero_le _))
    rw [hcells] at hdrop
    rw [Machine.dropCell, h.reg]
    exact h.movePointer hdrop

/-- Nothing is known of the upper cells of a stack, so they may be used as scratch memory. -/
theorem scratch (h : Shows areas v m) {s : Stack} {n : Nat} {cells : List (Option Cell)} {m' : Machine}
    (hcells : v.cells s = List.replicate n none ++ cells) (hreg : ∀ t : Stack, m'.reg t.pointer = v.reg t.pointer)
    (hsame : ∀ x < 2 ^ 64, ¬((v.reg s.pointer).toNat ≤ x ∧ x < (v.reg s.pointer).toNat + 8 * n) →
      m'.mem (BitVec.ofNat 64 x) = m.mem (BitVec.ofNat 64 x)) :
    Shows areas ⟨m'.reg, m'.flags, v.cells, v.mem, m'.output⟩ m' := by
  have hlength : (v.cells s).length = n + cells.length := by simp [hcells]
  have hholds := h.holds s
  have hroom := hholds.room
  have hend := hholds.toNat_pointer_add
  have htop := (areas.area s).base_add hroom
  have hlt := (areas.area s).top_lt
  -- The scratch memory lies in the area of its stack.
  have hinside : ∀ x, (v.reg s.pointer).toNat ≤ x ∧ x < (v.reg s.pointer).toNat + 8 * n →
      (areas.area s).Contains x := by
    intro x hx
    unfold Area.Contains
    omega
  refine ⟨rfl, rfl, rfl, fun t => ?_, fun x hx hout => ?_⟩
  · dsimp only
    rw [hreg t]
    by_cases hts : t = s
    · subst hts
      refine ⟨hroom, hholds.pointer_eq, fun i value hi => ?_⟩
      have hni : n ≤ i := by
        refine Nat.le_of_not_lt fun hin => ?_
        rw [hcells, List.getElem?_append_left (by simpa using hin), List.getElem?_replicate, if_pos hin] at hi
        cases hi
      have hil := (List.getElem?_eq_some_iff.mp hi).1
      rw [← hholds.stored i value hi]
      exact Memory.cell_congr fun j hj => hsame _ (by omega) (by omega)
    · refine (h.holds t).congr fun x hx => hsame x (Nat.lt_trans hx.2 (areas.area t).top_lt) fun hx' => ?_
      exact hts (areas.apart t s x hx (hinside x hx'))
  · exact (hsame x hx fun hx' => hout s (hinside x hx')).trans (h.other x hx hout)

theorem alu (h : Shows areas v m) {op : AluOp} {a b : BitVec 64} {keep : View → BitVec 64 → Option View}
    {keep' : Machine → BitVec 64 → Machine} (hv : v.alu op a b keep = some v')
    (hkeep : ∀ {w w' : View} {n : Machine} {result : BitVec 64}, Shows areas w n → keep w result = some w' →
      Shows areas w' (keep' n result)) : Shows areas v' (m.alu op a b keep') := by
  unfold View.alu at hv
  rw [Machine.alu_eq]
  by_cases hop : op = .cmp
  · rw [if_pos hop] at hv ⊢
    cases hv
    exact h.setFlags _ _
  · rw [if_neg hop] at hv ⊢
    exact hkeep (h.setFlags _ _) hv

theorem compute (h : Shows areas v m) {i : Instruction} {rs : List Register} (hi : i.writes? = some rs)
    (hv : v.compute kernel i = some v') :
    m.execute kernel i = .running { m with reg := v'.reg, flags := v'.flags } ∧
      v' = { v with reg := v'.reg, flags := v'.flags } ∧ ∀ r, r ∉ rs → v'.reg r = v.reg r := by
  unfold View.compute at hv
  cases hcore : v.core.execute kernel i with
  | running core' =>
    rw [hcore] at hv
    cases hv
    obtain ⟨hm, hr⟩ := Machine.execute_of_writes? (show m.reg = v.core.reg from h.reg) hi h.flags hcore
    exact ⟨hm, rfl, hr⟩
  | exited status core' =>
    rw [hcore] at hv
    cases hv
  | fault =>
    rw [hcore] at hv
    cases hv

theorem registers (h : Shows areas v m) {reg : Register → BitVec 64}
    (hreg : ∀ s : Stack, reg s.pointer = v.reg s.pointer)
    (flags : Flags) : Shows areas { v with reg := reg, flags := flags } { m with reg := reg, flags := flags } := by
  refine ⟨rfl, rfl, h.output, fun s => ?_, h.other⟩
  dsimp only
  rw [hreg s]
  exact h.holds s

theorem execute_of_compute (h : Shows areas v m) {i : Instruction} {rs : List Register} (hi : i.writes? = some rs)
    (hrs : rs.any Register.isPointer = false) (hv : v.compute kernel i = some v') :
    ∃ m', m.execute kernel i = .running m' ∧ m'.ip = m.ip ∧ Shows areas v' m' := by
  obtain ⟨hm, hv', hr⟩ := h.compute hi hv
  refine ⟨_, hm, rfl, ?_⟩
  rw [hv']
  refine h.registers (fun s => hr _ fun hmem => ?_) _
  have := List.any_eq_false.mp hrs _ hmem
  exact this (by simp [Register.isPointer, Stack.ofPointer?_eq_some_iff.mpr rfl])

theorem move (h : Shows areas v m) {op : AluOp} {s : Stack} {value : BitVec 32} {n : Nat} {cells : List (Option Cell)}
    (hn : cellIndex? value = some n) (hcells : View.moved (v.cells s) n op = some cells)
    (hroom : (v.cells s).length + (Instruction.aluRegImm op s.pointer value).pushes s ≤ (areas.area s).cells) :
    (areas.area s).Holds m.mem (op.eval (v.reg s.pointer) (value.signExtend 64)).1 cells := by
  rw [signExtend_of_cellIndex? hn]
  unfold View.moved at hcells
  split at hcells
  · split at hcells
    · next hle =>
      cases hcells
      exact (h.holds s).drop hle
    · cases hcells
  · cases hcells
    have hpushes : (Instruction.aluRegImm .sub s.pointer value).pushes s = n := by
      unfold cellIndex? at hn
      split at hn
      · cases hn
        simp [Instruction.pushes]
      · cases hn
    rw [hpushes] at hroom
    exact (h.holds s).push hroom
  · cases hcells

theorem execute_pointer (h : Shows areas v m) {op : AluOp} {s : Stack} {value : BitVec 32}
    (hv : v.execute kernel (.aluRegImm op s.pointer value) = some v')
    (hroom : (v.cells s).length + (Instruction.aluRegImm op s.pointer value).pushes s ≤ (areas.area s).cells) :
    ∃ m', m.execute kernel (.aluRegImm op s.pointer value) = .running m' ∧ m'.ip = m.ip ∧ Shows areas v' m' := by
  simp only [View.execute, Stack.ofPointer?_eq_some_iff.mpr (rfl : s.pointer = s.pointer)] at hv
  obtain ⟨w, hw, hv⟩ := Option.bind_eq_some_iff.mp hv
  obtain ⟨n, hn, hv⟩ := Option.bind_eq_some_iff.mp hv
  obtain ⟨cells, hcells, rfl⟩ := Option.map_eq_some_iff.mp hv
  have hholds := h.move hn hcells hroom
  have hop : op ≠ .cmp := by
    rintro rfl
    cases hcells
  have hcompute : w = (v.setFlags (op.eval (v.reg s.pointer) (value.signExtend 64)).1
      (op.eval (v.reg s.pointer) (value.signExtend 64)).2).setReg s.pointer
        (op.eval (v.reg s.pointer) (value.signExtend 64)).1 := by
    cases op <;> first | exact absurd rfl hop | exact (Option.some.inj hw).symm
  rw [Machine.execute, Machine.alu_eq, if_neg hop, h.reg, hcompute]
  exact ⟨_, rfl, rfl, (h.setFlags _ _).movePointer hholds⟩

/-- **An instruction does to a machine what it does to the view of it.** -/
theorem execute (h : Shows areas v m) {i : Instruction} (hv : v.execute kernel i = some v')
    (hroom : ∀ s, (v.cells s).length + i.pushes s ≤ (areas.area s).cells) :
    ∃ m', m.execute kernel i = .running m' ∧ m'.ip = m.ip ∧ Shows areas v' m' := by
  cases i with
  | load dst src =>
    rw [View.execute] at hv
    split at hv
    · cases hv
    · next hdst =>
      obtain ⟨value, hvalue, rfl⟩ := Option.map_eq_some_iff.mp hv
      refine ⟨_, rfl, rfl, ?_⟩
      rw [h.cellAt_eq hvalue]
      exact h.setReg (Bool.eq_false_iff.mpr hdst) value
  | store dst src =>
    refine ⟨_, rfl, rfl, ?_⟩
    rw [h.reg]
    exact h.setCellAt hv
  | storeImm dst value => exact ⟨_, rfl, rfl, h.setCellAt hv⟩
  | push src =>
    cases hv
    refine ⟨_, rfl, rfl, ?_⟩
    rw [h.reg]
    exact h.pushCell (hroom .ret) _
  | pop dst =>
    rw [View.execute] at hv
    split at hv
    · cases hv
    · next hdst =>
      split at hv
      · next a cells hcells =>
        cases hv
        obtain ⟨htop, hdropped⟩ := h.popCell hcells
        refine ⟨_, rfl, rfl, ?_⟩
        rw [htop]
        exact hdropped.setReg (Bool.eq_false_iff.mpr hdst) a
      · cases hv
  | aluMemReg op dst src =>
    rw [View.execute] at hv
    obtain ⟨a, ha, hv⟩ := Option.bind_eq_some_iff.mp hv
    refine ⟨_, rfl, Machine.ip_alu _ _ _ _ fun _ _ => rfl, ?_⟩
    rw [h.cellAt_eq ha, h.reg]
    exact h.alu hv fun hw hset => hw.setCellAt hset
  | aluRegMem op dst src =>
    rw [View.execute] at hv
    split at hv
    · cases hv
    · next hdst =>
      obtain ⟨b, hb, hv⟩ := Option.bind_eq_some_iff.mp hv
      refine ⟨_, rfl, Machine.ip_alu _ _ _ _ fun _ _ => rfl, ?_⟩
      rw [h.cellAt_eq hb, h.reg]
      refine h.alu hv fun hw hset => ?_
      cases hset
      exact hw.setReg (Bool.eq_false_iff.mpr hdst) _
  | incMem dst =>
    rw [View.execute] at hv
    obtain ⟨a, ha, hv⟩ := Option.bind_eq_some_iff.mp hv
    refine ⟨_, rfl, Machine.ip_alu _ _ _ _ fun _ _ => rfl, ?_⟩
    rw [h.cellAt_eq ha]
    exact h.alu hv fun hw hset => hw.setCellAt hset
  | aluRegImm op dst value =>
    cases hdst : Stack.ofPointer? dst with
    | none =>
      simp only [View.execute, hdst] at hv
      exact h.execute_of_compute rfl (by simp [Register.isPointer, hdst]) hv
    | some s =>
      obtain rfl := Stack.ofPointer?_eq_some_iff.mp hdst
      exact h.execute_pointer hv (hroom s)
  | _ =>
    simp only [View.execute] at hv
    split at hv
    · next rs hrs =>
      split at hv
      · cases hv
      · next hpointer => exact h.execute_of_compute hrs (Bool.eq_false_iff.mpr hpointer) hv
    · cases hv

end Shows

/-! ### The sizes of the stacks -/

namespace View

variable {kernel : Kernel} {v v' : View}

theorem cells_of_compute {i : Instruction} (hv : v.compute kernel i = some v') : v'.cells = v.cells := by
  unfold compute at hv
  split at hv <;> cases hv
  rfl

theorem length_of_setCellAt? {operand : Mem} {value : Cell} (hv : v.setCellAt? operand value = some v') (s : Stack) :
    (v'.cells s).length = (v.cells s).length := by
  obtain ⟨t, i, -, -, -, rfl⟩ := exists_of_setCellAt? hv
  by_cases hst : s = t
  · subst hst
    simp [setCells]
  · simp [setCells, hst]

theorem length_of_alu {op : AluOp} {a b : BitVec 64} {keep : View → BitVec 64 → Option View} {s : Stack}
    (hv : v.alu op a b keep = some v')
    (hkeep : ∀ {w w' : View} {result : BitVec 64}, keep w result = some w' →
      (w'.cells s).length = (w.cells s).length) : (v'.cells s).length = (v.cells s).length := by
  unfold alu at hv
  split at hv
  · cases hv
    rfl
  · exact hkeep (w := v.setFlags (op.eval a b).1 (op.eval a b).2) hv

/-- A stack grows by no more than what is pushed. -/
theorem length_cells_le {i : Instruction} (hv : v.execute kernel i = some v') (s : Stack) :
    (v'.cells s).length ≤ (v.cells s).length + i.pushes s := by
  cases i with
  | load dst src =>
    rw [execute] at hv
    split at hv
    · cases hv
    · obtain ⟨value, -, rfl⟩ := Option.map_eq_some_iff.mp hv
      exact Nat.le_refl _
  | store dst src => exact Nat.le_of_eq (length_of_setCellAt? hv s)
  | storeImm dst value => exact Nat.le_of_eq (length_of_setCellAt? hv s)
  | push src =>
    cases hv
    cases s <;> simp [setCells, setReg, Instruction.pushes]
  | pop dst =>
    rw [execute] at hv
    split at hv
    · cases hv
    · split at hv
      · next a cells hcells =>
        cases hv
        cases s with
        | data => exact Nat.le_refl _
        | ret => simp [setCells, setReg, hcells, Instruction.pushes]
      · cases hv
  | aluMemReg op dst src =>
    rw [execute] at hv
    obtain ⟨a, -, hv⟩ := Option.bind_eq_some_iff.mp hv
    exact Nat.le_of_eq (length_of_alu hv fun hset => length_of_setCellAt? hset s)
  | aluRegMem op dst src =>
    rw [execute] at hv
    split at hv
    · cases hv
    · obtain ⟨b, -, hv⟩ := Option.bind_eq_some_iff.mp hv
      refine Nat.le_of_eq (length_of_alu hv fun hset => ?_)
      cases hset
      rfl
  | incMem dst =>
    rw [execute] at hv
    obtain ⟨a, -, hv⟩ := Option.bind_eq_some_iff.mp hv
    exact Nat.le_of_eq (length_of_alu hv fun hset => length_of_setCellAt? hset s)
  | aluRegImm op dst value =>
    rw [execute] at hv
    split at hv
    · rw [cells_of_compute hv]
      exact Nat.le_add_right _ _
    · next t ht =>
      obtain rfl := Stack.ofPointer?_eq_some_iff.mp ht
      obtain ⟨w, hw, hv⟩ := Option.bind_eq_some_iff.mp hv
      obtain ⟨n, hn, hv⟩ := Option.bind_eq_some_iff.mp hv
      obtain ⟨cells, hcells, rfl⟩ := Option.map_eq_some_iff.mp hv
      by_cases hst : s = t
      · subst hst
        unfold cellIndex? at hn
        split at hn <;> cases hn
        cases op <;> simp only [moved] at hcells
        case add =>
          split at hcells <;> cases hcells
          simp [setCells]
          omega
        case sub =>
          cases hcells
          simp [setCells, Instruction.pushes]
          omega
        all_goals cases hcells
      · simp [setCells, hst, cells_of_compute hw]
  | _ =>
    simp only [execute] at hv
    split at hv
    · split at hv
      · cases hv
      · rw [cells_of_compute hv]
        exact Nat.le_add_right _ _
    · cases hv

/-! ### The memory apart from the stacks -/

theorem mem_of_compute {i : Instruction} (hv : v.compute kernel i = some v') : v'.mem = v.mem := by
  unfold compute at hv
  split at hv <;> cases hv
  rfl

theorem mem_of_setCellAt? {operand : Mem} {value : Cell} (hv : v.setCellAt? operand value = some v') :
    v'.mem = v.mem := by
  obtain ⟨t, i, -, -, -, rfl⟩ := exists_of_setCellAt? hv
  rfl

theorem mem_of_alu {op : AluOp} {a b : BitVec 64} {keep : View → BitVec 64 → Option View}
    (hv : v.alu op a b keep = some v')
    (hkeep : ∀ {w w' : View} {result : BitVec 64}, keep w result = some w' → w'.mem = w.mem) : v'.mem = v.mem := by
  unfold alu at hv
  split at hv
  · cases hv
    rfl
  · exact hkeep (w := v.setFlags (op.eval a b).1 (op.eval a b).2) hv

/-- An instruction on a view changes nothing but registers and stacks. -/
theorem mem_of_execute {i : Instruction} (hv : v.execute kernel i = some v') : v'.mem = v.mem := by
  cases i with
  | load dst src =>
    rw [execute] at hv
    split at hv
    · cases hv
    · obtain ⟨value, -, rfl⟩ := Option.map_eq_some_iff.mp hv
      rfl
  | store dst src | storeImm dst value => exact mem_of_setCellAt? hv
  | push src =>
    cases hv
    rfl
  | pop dst =>
    rw [execute] at hv
    split at hv
    · cases hv
    · split at hv <;> cases hv
      rfl
  | aluMemReg op dst src | incMem dst =>
    rw [execute] at hv
    obtain ⟨a, -, hv⟩ := Option.bind_eq_some_iff.mp hv
    exact mem_of_alu hv mem_of_setCellAt?
  | aluRegMem op dst src =>
    rw [execute] at hv
    split at hv
    · cases hv
    · obtain ⟨b, -, hv⟩ := Option.bind_eq_some_iff.mp hv
      refine mem_of_alu hv fun hset => ?_
      cases hset
      rfl
  | aluRegImm op dst value =>
    rw [execute] at hv
    split at hv
    · exact mem_of_compute hv
    · obtain ⟨w, hw, hv⟩ := Option.bind_eq_some_iff.mp hv
      obtain ⟨n, -, hv⟩ := Option.bind_eq_some_iff.mp hv
      obtain ⟨cells, -, rfl⟩ := Option.map_eq_some_iff.mp hv
      have hmem : w.mem = v.mem := mem_of_compute hw
      exact hmem
  | _ =>
    simp only [execute] at hv
    split at hv
    · split at hv
      · cases hv
      · exact mem_of_compute hv
    · cases hv

end View

end ForthElf
