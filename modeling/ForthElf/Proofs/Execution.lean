import ForthElf.Proofs.Placement
import ForthElf.Proofs.StackView

/-!
# Running placed code

* `LoadedCode.Consists code instructions` — what is loaded are the given instructions;
* `Reaches kernel code m m'` — the machine gets from `m` to `m'`;
* `Performs kernel code m requests m'` — it does so with these system calls on the way;
* `Performs.block` — **plain instructions at their place do what they do one after the other**;
* `Stands code areas v p m` — the machine is at offset `p` of the code and looks like the view `v`;
* `Stands.run` — **straight code at its place does what it does to the view**;
* `Stands.jump`, `Stands.jumpIf`, `Stands.call`, `Stands.ret`, `Stands.write`, `Stands.exits` — the other instructions.
-/

namespace ForthElf

open Register

/-! ### Fetching -/

namespace LoadedCode

def address (code : LoadedCode) (offset : Nat) : BitVec 64 :=
  code.base + BitVec.ofNat 64 offset

/-- What is loaded are the given instructions. -/
structure Consists (code : LoadedCode) (instructions : List Instruction) : Prop where
  bytes : code.bytes = assemble instructions
  encodable : ∀ i ∈ instructions, i.Encodable
  size : codeSize instructions < 2 ^ 31

variable {code : LoadedCode} {instructions : List Instruction} {p : Nat} {i : Instruction}

theorem address_add (code : LoadedCode) (p n : Nat) :
    code.address p + BitVec.ofNat 64 n = code.address (p + n) := by
  rw [address, address, BitVec.add_assoc, BitVec.ofNat_add_ofNat]

/-- A branch leads where its displacement says. -/
theorem address_add_signExtend (code : LoadedCode) {p target : Nat} {d : BitVec 32} (h : (p : Int) + d.toInt = target) :
    code.address p + d.signExtend 64 = code.address target := by
  have hd : d.signExtend 64 = BitVec.ofInt 64 d.toInt := rfl
  have hp : BitVec.ofNat 64 p = BitVec.ofInt 64 p := (BitVec.ofInt_natCast ..).symm
  rw [address, address, BitVec.add_assoc, hd, hp, ← BitVec.ofInt_add, h, BitVec.ofInt_natCast]

theorem fetch?_address (h : code.Consists instructions) (hi : Placed instructions p [i]) :
    code.fetch? (code.address p) = some (i, code.address (p + i.size)) := by
  have hencodable := h.encodable i hi.mem
  have hle := hi.add_codeSize_le
  have hsize := h.size
  have hp : (code.address p - code.base).toNat = p := by
    rw [address, BitVec.add_comm, BitVec.add_sub_cancel, BitVec.toNat_ofNat, Nat.mod_eq_of_lt (by omega)]
  obtain ⟨front, back, rfl, rfl⟩ := hi
  have hdrop : code.bytes.drop (codeSize front) = i.encode ++ assemble back := by
    rw [h.bytes, assemble_append, assemble_append, List.append_assoc, ← length_assemble, List.drop_left,
      assemble_cons, assemble_nil, List.append_nil]
  have hlength : (window (i.encode ++ assemble back)).length - ((assemble back).take (15 - i.size)).length =
      i.size := by
    have := i.size_le
    have hencode : i.encode.length = i.size := rfl
    simp only [window, List.length_take, List.length_append, hencode]
    omega
  rw [fetch?, hp, hdrop, decode_window hencodable]
  dsimp only
  rw [hlength, address_add]

end LoadedCode

/-! ### Runs -/

/-- The machine gets from `m` to `m'`. -/
def Reaches (kernel : Kernel) (code : LoadedCode) (m m' : Machine) : Prop :=
  ∃ n, m.run kernel code n = .running m'

namespace Reaches

variable {kernel : Kernel} {code : LoadedCode} {m m' m'' : Machine}

theorem refl (m : Machine) : Reaches kernel code m m :=
  ⟨0, rfl⟩

theorem trans (h : Reaches kernel code m m') (h' : Reaches kernel code m' m'') : Reaches kernel code m m'' := by
  obtain ⟨a, ha⟩ := h
  obtain ⟨b, hb⟩ := h'
  exact ⟨a + b, by rw [Machine.run_add ha, hb]⟩

theorem step (h : m.step kernel code = .running m') : Reaches kernel code m m' :=
  ⟨1, by rw [Machine.run, h]; rfl⟩

end Reaches

/-- What a process asks of the kernel: the number of a system call, its first argument, and the bytes at which the
second argument points, as many as the third one says. -/
structure KernelRequest where
  number : BitVec 64
  target : BitVec 64
  text : List UInt8
deriving DecidableEq

namespace Machine

/-- What the next instruction asks of the kernel. -/
def request? (code : LoadedCode) (m : Machine) : Option KernelRequest :=
  match code.fetch? m.ip with
  | some (.syscall, _) => some ⟨m.reg rax, m.reg rdi, m.mem.read (m.reg rsi) (m.reg rdx).toNat⟩
  | _ => none

/-- What the machine asks of the kernel in up to a number of steps. -/
def requests (kernel : Kernel) (code : LoadedCode) : Nat → Machine → List KernelRequest
  | 0, _ => []
  | n + 1, m => (m.request? code).toList ++
    match m.step kernel code with
    | .running m' => requests kernel code n m'
    | _ => []

theorem requests_add {kernel : Kernel} {code : LoadedCode} {a : Nat} {m m' : Machine}
    (h : m.run kernel code a = .running m') (b : Nat) :
    m.requests kernel code (a + b) = m.requests kernel code a ++ m'.requests kernel code b := by
  induction a generalizing m with
  | zero =>
    cases h
    rw [Nat.zero_add]
    rfl
  | succ a ih =>
    rw [Nat.succ_add]
    simp only [run, requests] at h ⊢
    cases hs : m.step kernel code with
    | running next =>
      rw [hs] at h
      dsimp only
      rw [ih h, List.append_assoc]
    | exited status next =>
      rw [hs] at h
      cases h
    | fault =>
      rw [hs] at h
      cases h

variable {code : LoadedCode} {instructions : List Instruction} {p : Nat} {m : Machine} {i : Instruction}

/-- Only system calls ask anything. -/
theorem request?_eq_none (hcode : code.Consists instructions) (hip : m.ip = code.address p)
    (hi : Placed instructions p [i]) (hne : i ≠ .syscall) : m.request? code = none := by
  rw [request?, hip, LoadedCode.fetch?_address hcode hi]
  cases i <;> first | rfl | exact absurd rfl hne

theorem request?_syscall (hcode : code.Consists instructions) (hip : m.ip = code.address p)
    (hi : Placed instructions p [.syscall]) :
    m.request? code = some ⟨m.reg rax, m.reg rdi, m.mem.read (m.reg rsi) (m.reg rdx).toNat⟩ := by
  rw [request?, hip, LoadedCode.fetch?_address hcode hi]

end Machine

/-- The machine gets from `m` to `m'` and asks the kernel for `requests` on the way. -/
def Performs (kernel : Kernel) (code : LoadedCode) (m : Machine) (requests : List KernelRequest) (m' : Machine) :
    Prop :=
  ∃ n, m.run kernel code n = .running m' ∧ m.requests kernel code n = requests

namespace Performs

variable {kernel : Kernel} {code : LoadedCode} {instructions : List Instruction} {p : Nat} {i : Instruction}
  {m m' m'' : Machine} {a b : List KernelRequest}

theorem reaches (h : Performs kernel code m a m') : Reaches kernel code m m' := by
  obtain ⟨n, hn, -⟩ := h
  exact ⟨n, hn⟩

theorem refl (m : Machine) : Performs kernel code m [] m :=
  ⟨0, rfl, rfl⟩

theorem trans (h : Performs kernel code m a m') (h' : Performs kernel code m' b m'') :
    Performs kernel code m (a ++ b) m'' := by
  obtain ⟨i, hi, rfl⟩ := h
  obtain ⟨j, hj, rfl⟩ := h'
  exact ⟨i + j, by rw [Machine.run_add hi, hj], Machine.requests_add hi j⟩

theorem step (h : m.step kernel code = .running m') : Performs kernel code m (m.request? code).toList m' := by
  refine ⟨1, by rw [Machine.run, h]; rfl, ?_⟩
  rw [Machine.requests, h]
  exact List.append_nil _

theorem quiet (hcode : code.Consists instructions) (hip : m.ip = code.address p) (hi : Placed instructions p [i])
    (hne : i ≠ .syscall) (h : m.step kernel code = .running m') : Performs kernel code m [] m' := by
  have hstep := Performs.step h
  rwa [Machine.request?_eq_none hcode hip hi hne] at hstep

end Performs

/-! ### Straight code -/

/-- Whether an instruction leads to the one behind it and asks nothing of the kernel. -/
def Instruction.isPlain : Instruction → Bool
  | .branch _ _ | .ret | .syscall => false
  | _ => true

namespace Machine

/-- What a block of plain instructions at offset `p` does. -/
def perform (kernel : Kernel) (code : LoadedCode) (p : Nat) (m : Machine) : List Instruction → Option Machine
  | [] => some m
  | i :: block =>
    match (m.jump (code.address (p + i.size))).execute kernel i with
    | .running m' => m'.perform kernel code (p + i.size) block
    | _ => none

theorem ip_of_execute {kernel : Kernel} {m m' : Machine} {i : Instruction} (hi : i.isPlain)
    (h : m.execute kernel i = .running m') : m'.ip = m.ip := by
  cases i with
  | branch kind d | ret | syscall => cases hi
  | unary op dst =>
    cases op with
    | not | neg =>
      cases h
      rfl
    | div =>
      simp only [execute, unary, divide] at h
      split at h <;> cases h
      rfl
    | idiv =>
      simp only [execute, unary, divideSigned] at h
      split at h <;> cases h
      rfl
  | aluRegReg op dst src | aluRegImm op dst src | aluMemReg op dst src | aluRegMem op dst src =>
    cases h
    exact ip_alu _ _ _ _ fun _ _ => rfl
  | incMem dst | decReg dst =>
    cases h
    exact ip_alu _ _ _ _ fun _ _ => rfl
  | shift op dst =>
    cases h
    unfold shift
    dsimp only
    split <;> rfl
  | moveIf condition dst src =>
    cases h
    split <;> rfl
  | _ =>
    cases h
    rfl

end Machine

/-- **A block of plain instructions at its place.** -/
theorem Performs.block {kernel : Kernel} {code : LoadedCode} {instructions block : List Instruction} {p : Nat}
    {m m' : Machine} (hcode : code.Consists instructions) (hip : m.ip = code.address p)
    (hblock : Placed instructions p block) (hplain : block.all Instruction.isPlain)
    (h : m.perform kernel code p block = some m') :
    Performs kernel code m [] m' ∧ m'.ip = code.address (p + codeSize block) := by
  induction block generalizing p m with
  | nil =>
    cases h
    exact ⟨.refl _, hip⟩
  | cons i block ih =>
    rw [List.all_cons, Bool.and_eq_true] at hplain
    rw [Machine.perform] at h
    split at h
    · next m₁ hm₁ =>
      have hstep : m.step kernel code = .running m₁ := by
        rw [Machine.step, hip, LoadedCode.fetch?_address hcode hblock.head]
        exact hm₁
      have hquiet : Performs kernel code m [] m₁ := by
        refine .quiet hcode hip hblock.head ?_ hstep
        rintro rfl
        exact absurd hplain.1 (by decide)
      obtain ⟨hrest, hend⟩ := ih (Machine.ip_of_execute hplain.1 hm₁) hblock.tail hplain.2 h
      refine ⟨hquiet.trans hrest, ?_⟩
      rw [hend, codeSize_cons, Nat.add_assoc]
    · cases h

/-- The machine is at offset `p` of the code and looks like the view `v`. -/
structure Stands (code : LoadedCode) (areas : Areas) (v : View) (p : Nat) (m : Machine) : Prop where
  looks : Shows areas v m
  ip_eq : m.ip = code.address p

/-- What a block does to a view. -/
def View.run (kernel : Kernel) (v : View) : List Instruction → Option View
  | [] => some v
  | i :: block => (v.execute kernel i).bind fun v => v.run kernel block

/-- The cells that a block pushes on a stack. -/
def pushes (s : Stack) (block : List Instruction) : Nat :=
  (block.map (·.pushes s)).sum

theorem View.run_append (kernel : Kernel) (v : View) (a b : List Instruction) :
    v.run kernel (a ++ b) = (v.run kernel a).bind fun v => v.run kernel b := by
  induction a generalizing v with
  | nil => rfl
  | cons i a ih =>
    rw [List.cons_append, run, run, Option.bind_assoc]
    exact congrArg _ (funext fun v => ih v)

/-- A block on a view changes nothing but registers and stacks. -/
theorem View.mem_of_run {kernel : Kernel} {v v' : View} {block : List Instruction} (h : v.run kernel block = some v') :
    v'.mem = v.mem := by
  induction block generalizing v with
  | nil =>
    cases h
    rfl
  | cons i block ih =>
    obtain ⟨w, hw, h⟩ := Option.bind_eq_some_iff.mp h
    rw [ih h, mem_of_execute hw]

namespace Stands

variable {kernel : Kernel} {code : LoadedCode} {areas : Areas} {instructions : List Instruction} {v v' : View} {p : Nat}
  {m : Machine}

theorem step_eq (hcode : code.Consists instructions) (h : Stands code areas v p m) {i : Instruction}
    (hi : Placed instructions p [i]) :
    m.step kernel code = (m.jump (code.address (p + i.size))).execute kernel i := by
  rw [Machine.step, h.ip_eq, LoadedCode.fetch?_address hcode hi]

theorem looks_jump (h : Shows areas v m) (address : BitVec 64) : Shows areas v (m.jump address) :=
  ⟨h.reg, h.flags, h.output, h.holds, h.other⟩

theorem execute (hcode : code.Consists instructions) (h : Stands code areas v p m) {i : Instruction}
    (hi : Placed instructions p [i]) (hv : v.execute kernel i = some v')
    (hroom : ∀ s, (v.cells s).length + i.pushes s ≤ (areas.area s).cells) :
    ∃ m', Performs kernel code m [] m' ∧ Stands code areas v' (p + i.size) m' := by
  obtain ⟨m', hm', hip, hlooks⟩ := (looks_jump h.looks (code.address (p + i.size))).execute hv hroom
  refine ⟨m', .quiet hcode h.ip_eq hi ?_ ?_, hlooks, hip⟩
  · rintro rfl
    cases hv
  · rw [h.step_eq hcode hi, hm']

/-- **Straight code at its place.** -/
theorem run (hcode : code.Consists instructions) (h : Stands code areas v p m) {block : List Instruction}
    (hblock : Placed instructions p block) (hv : v.run kernel block = some v')
    (hroom : ∀ s, (v.cells s).length + pushes s block ≤ (areas.area s).cells) :
    ∃ m', Performs kernel code m [] m' ∧ Stands code areas v' (p + codeSize block) m' := by
  induction block generalizing v p m with
  | nil =>
    cases hv
    exact ⟨m, .refl m, h⟩
  | cons i block ih =>
    rw [View.run] at hv
    obtain ⟨w, hw, hv⟩ := Option.bind_eq_some_iff.mp hv
    have hsum : ∀ s, (v.cells s).length + (i.pushes s + pushes s block) ≤ (areas.area s).cells := hroom
    obtain ⟨m₁, hm₁, h₁⟩ := h.execute hcode hblock.head hw fun s => by
      have := hsum s
      omega
    obtain ⟨m₂, hm₂, h₂⟩ := ih h₁ hblock.tail hv fun s => by
      have := hsum s
      have := View.length_cells_le hw s
      omega
    refine ⟨m₂, hm₁.trans hm₂, ?_⟩
    rw [codeSize_cons, ← Nat.add_assoc]
    exact h₂

/-! ### Branches -/

section Branches

variable {d : BitVec 32} {target : Nat}

theorem jump (hcode : code.Consists instructions) (h : Stands code areas v p m)
    (hi : Placed instructions p [.branch .jump d]) (hd : (p + Branch.jump.size : Int) + d.toInt = target) :
    ∃ m', Performs kernel code m [] m' ∧ Stands code areas v target m' := by
  refine ⟨_, .quiet hcode h.ip_eq hi nofun (h.step_eq hcode hi), looks_jump (looks_jump h.looks _) _, ?_⟩
  exact code.address_add_signExtend hd

theorem jumpIf (hcode : code.Consists instructions) (h : Stands code areas v p m) {condition : Condition}
    (hi : Placed instructions p [.branch (.jumpIf condition) d])
    (hd : (p + (Branch.jumpIf condition).size : Int) + d.toInt = target) :
    ∃ m', Performs kernel code m [] m' ∧
      Stands code areas v (if condition.holds v.flags then target else p + (Branch.jumpIf condition).size) m' := by
  refine ⟨_, .quiet hcode h.ip_eq hi nofun (h.step_eq hcode hi), ?_⟩
  rw [Machine.branch, ← h.looks.flags]
  show Stands code areas v _ (if condition.holds m.flags then _ else _)
  cases condition.holds m.flags with
  | true => exact ⟨looks_jump (looks_jump h.looks _) _, code.address_add_signExtend hd⟩
  | false => exact ⟨looks_jump h.looks _, rfl⟩

theorem call (hcode : code.Consists instructions) (h : Stands code areas v p m)
    (hi : Placed instructions p [.branch .call d]) (hd : (p + Branch.call.size : Int) + d.toInt = target)
    (hroom : (v.cells .ret).length < (areas.area .ret).cells) :
    ∃ m', Performs kernel code m [] m' ∧
      Stands code areas ((v.setReg rsp (v.reg rsp - 8)).setCells .ret
        (some (code.address (p + Branch.call.size)) :: v.cells .ret)) target m' := by
  refine ⟨_, .quiet hcode h.ip_eq hi nofun (h.step_eq hcode hi),
    looks_jump ((looks_jump h.looks _).pushCell hroom _) _, ?_⟩
  exact code.address_add_signExtend hd

theorem ret (hcode : code.Consists instructions) (h : Stands code areas v p m) (hi : Placed instructions p [.ret])
    {cells : List (Option Cell)} (hcells : v.cells .ret = some (code.address target) :: cells) :
    ∃ m', Performs kernel code m [] m' ∧
      Stands code areas ((v.setReg rsp (v.reg rsp + 8)).setCells .ret cells) target m' := by
  obtain ⟨htop, hdropped⟩ := (looks_jump h.looks (code.address (p + Instruction.ret.size))).popCell hcells
  exact ⟨_, .quiet hcode h.ip_eq hi nofun (h.step_eq hcode hi), looks_jump hdropped _, htop⟩

end Branches

/-! ### Memory beside the stacks -/

theorem storeByte (hcode : code.Consists instructions) (h : Stands code areas v p m) {dst : Mem} {src : Register}
    (hi : Placed instructions p [.storeByte dst src]) {x : Nat}
    (haddress : v.reg dst.base + dst.disp.signExtend 64 = BitVec.ofNat 64 x) (hx : x < 2 ^ 64)
    (hout : ∀ s, ¬(areas.area s).Contains x) :
    ∃ m', Performs kernel code m [] m' ∧ Stands code areas
      { v with mem := v.mem.set (BitVec.ofNat 64 x) (UInt8.ofNat (v.reg src).toNat) }
      (p + (Instruction.storeByte dst src).size) m' := by
  have hlooks := looks_jump h.looks (code.address (p + (Instruction.storeByte dst src).size))
  refine ⟨_, .quiet hcode h.ip_eq hi nofun (h.step_eq hcode hi),
    ⟨hlooks.reg, hlooks.flags, hlooks.output, fun s => ?_, fun y hy hother => ?_⟩, rfl⟩
  · refine (hlooks.holds s).congr fun y hy => Memory.set_of_ne _ _ ?_
    rw [Machine.addressOf, hlooks.reg, haddress]
    refine Memory.ofNat_ne_ofNat hx (Nat.lt_trans hy.2 (areas.area s).top_lt) ?_
    rintro rfl
    exact hout s hy
  · show Memory.set _ _ _ _ = Memory.set _ _ _ _
    rw [Machine.addressOf, hlooks.reg, haddress, Memory.set, Memory.set, hlooks.other y hy hother]

/-! ### System calls -/

theorem write (hcode : code.Consists instructions) (h : Stands code areas v p m)
    (hi : Placed instructions p [.syscall]) (hrax : v.reg rax = 1) (hrdi : v.reg rdi = 1) {text : List UInt8}
    (htext : m.mem.read (v.reg rsi) (v.reg rdx).toNat = text) :
    ∃ v' m', Performs kernel code m [⟨1, 1, text⟩] m' ∧ Stands code areas v' (p + Instruction.syscall.size) m' ∧
      v'.cells = v.cells ∧ v'.output = v.output ++ text ∧ v'.mem = v.mem ∧
      ∀ r, r ∉ [rax, rcx, r11] → v'.reg r = v.reg r := by
  have hlooks := looks_jump h.looks (code.address (p + Instruction.syscall.size))
  generalize hm₁ : m.jump (code.address (p + Instruction.syscall.size)) = m₁ at hlooks
  have hwritten : Shows areas { v with output := v.output ++ text } { m₁ with output := m₁.output ++ text } :=
    ⟨hlooks.reg, hlooks.flags, congrArg (· ++ text) hlooks.output, hlooks.holds, hlooks.other⟩
  have hregisters := ((hwritten.setReg (r := rax) rfl (kernel.rax m₁)).setReg (r := rcx) rfl
    (kernel.rcx m₁)).setReg (r := r11) rfl (kernel.r11 m₁)
  have hread : m₁.mem.read (m₁.reg rsi) (m₁.reg rdx).toNat = text := by
    rw [hlooks.reg, ← htext, ← hm₁]
    rfl
  have hstep : m.step kernel code = .running (((({ m₁ with output := m₁.output ++ text } : Machine).setReg rax
      (kernel.rax m₁)).setReg rcx (kernel.rcx m₁)).setReg r11 (kernel.r11 m₁)) := by
    rw [h.step_eq hcode hi, hm₁, Machine.execute, Machine.systemCall, hlooks.reg, if_pos ⟨hrax, hrdi⟩,
      ← hlooks.reg, hread]
  have hperforms := Performs.step hstep
  rw [Machine.request?_syscall hcode h.ip_eq hi, h.looks.reg, hrax, hrdi, htext] at hperforms
  refine ⟨_, _, hperforms, ⟨hregisters, by rw [← hm₁]; rfl⟩, rfl, rfl, rfl, fun r hr => ?_⟩
  simp only [List.mem_cons, List.not_mem_nil, or_false, not_or] at hr
  simp only [View.setReg, if_neg hr.1, if_neg hr.2.1, if_neg hr.2.2]

theorem exits (hcode : code.Consists instructions) (h : Stands code areas v p m)
    (hi : Placed instructions p (exitBlock 0)) :
    ∃ n m', m.run kernel code n = .exited 0 m' ∧ m'.output = v.output := by
  have hsplit : exitBlock 0 = [Instruction.movReg32Imm rax 60, .movReg32Imm rdi 0] ++ [Instruction.syscall] := rfl
  rw [hsplit] at hi
  have hv : v.run kernel [.movReg32Imm rax 60, .movReg32Imm rdi 0] = some ((v.setReg rax 60).setReg rdi 0) := rfl
  obtain ⟨m₁, ⟨n, hn, -⟩, h₁⟩ := h.run hcode hi.left hv fun s => (h.looks.holds s).room
  have hlooks := looks_jump h₁.looks (code.address
    (p + codeSize [.movReg32Imm rax 60, .movReg32Imm rdi 0] + Instruction.syscall.size))
  have hrax : ((v.setReg rax 60).setReg rdi 0).reg rax = 60 := rfl
  have hrdi : ((v.setReg rax 60).setReg rdi 0).reg rdi = 0 := rfl
  refine ⟨n + 1, _, ?_, hlooks.output⟩
  rw [Machine.run_add hn, Machine.run, h₁.step_eq hcode hi.right, Machine.execute, Machine.systemCall, hlooks.reg,
    hrax, hrdi, if_neg (by decide), if_pos rfl]
  rfl

end Stands

end ForthElf
