import ForthElf.Proofs.Representation
import ForthElf.Proofs.Steps

/-!
# Where loops with a step end

* `LoopFrame.leaves_iff_of_pos`, `LoopFrame.leaves_iff_of_neg` — in signed numbers, a loop is left when the index gets
  to the limit or beyond, even if it overflows;
* `Loop` — a loop in loaded code, with `Loop.AtEnd`, `Loop.Turns` and `Loop.Rounds` for machines that run it;
* `Loop.exists_turns` — **the end of a loop adds the step, takes it from the stack and leaves exactly at the boundary**;
* `Loop.Keeps.rounds`, `Loop.Rounds.eq_rounds` — with a constant step upwards, the body runs exactly as often as the
  step fits into the distance, rounded up.
-/

namespace ForthElf

open Register Compiler

/-! ### The boundary in signed numbers -/

theorem toNat_sub_eq_ite (x y : BitVec 64) :
    ((x - y).toNat : Int) = if y.toInt ≤ x.toInt then x.toInt - y.toInt else x.toInt - y.toInt + 2 ^ 64 := by
  have hx := x.isLt
  have hy := y.isLt
  rw [BitVec.toInt_eq_toNat_cond, BitVec.toInt_eq_toNat_cond, BitVec.toNat_sub]
  split <;> split <;> split <;> omega

theorem add_eq_iff_emod_eq_zero (x y z : BitVec 64) : x + y = z ↔ (x.toInt + y.toInt - z.toInt) % 2 ^ 64 = 0 := by
  have hx := x.isLt
  have hy := y.isLt
  have hz := z.isLt
  rw [← BitVec.toNat_inj, BitVec.toNat_add, BitVec.toInt_eq_toNat_cond, BitVec.toInt_eq_toNat_cond,
    BitVec.toInt_eq_toNat_cond]
  split <;> split <;> split <;> omega

namespace LoopFrame

variable {l : LoopFrame} {step : Cell}

theorem leaves_iff_of_pos (hstep : 0 < step.toInt) (hlt : l.index.toInt < l.limit.toInt) :
    (l.Crosses step ∨ l.index + step = l.limit) ↔ l.limit.toInt ≤ l.index.toInt + step.toInt := by
  have hindex := BitVec.le_toInt l.index
  have hlimit := BitVec.toInt_lt (x := l.limit)
  have hmax := BitVec.toInt_lt (x := step)
  rw [Crosses, toNat_sub_eq_ite, if_neg (by omega), add_eq_iff_emod_eq_zero]
  omega

theorem leaves_iff_of_neg (hstep : step.toInt < 0) (hle : l.limit.toInt ≤ l.index.toInt) :
    (l.Crosses step ∨ l.index + step = l.limit) ↔ l.index.toInt + step.toInt ≤ l.limit.toInt := by
  have hindex := BitVec.toInt_lt (x := l.index)
  have hlimit := BitVec.le_toInt l.limit
  have hmin := BitVec.le_toInt step
  rw [Crosses, toNat_sub_eq_ite, if_pos hle, add_eq_iff_emod_eq_zero]
  omega

/-- The frame with the step added to the index. -/
def advanced (l : LoopFrame) (step : Cell) : LoopFrame :=
  ⟨l.index + step, l.limit⟩

/-- How often a body runs that steps up to the limit: the distance divided by the step, rounded up. -/
def rounds (l : LoopFrame) (step : Cell) : Nat :=
  ((l.limit.toInt - l.index.toInt + (step.toInt - 1)) / step.toInt).toNat

theorem toInt_index_advanced (hstep : 0 < step.toInt) (hlt : l.index.toInt + step.toInt < l.limit.toInt) :
    (l.advanced step).index.toInt = l.index.toInt + step.toInt := by
  have hindex := BitVec.le_toInt l.index
  have hlimit := BitVec.toInt_lt (x := l.limit)
  rw [advanced, BitVec.toInt_add, Int.bmod_eq_of_le (by omega) (by omega)]

theorem rounds_of_le (hstep : 0 < step.toInt) (hlt : l.index.toInt < l.limit.toInt)
    (hle : l.limit.toInt ≤ l.index.toInt + step.toInt) : l.rounds step = 1 := by
  have hone : (l.limit.toInt - l.index.toInt + (step.toInt - 1)) / step.toInt = 1 := by
    rw [Int.ediv_eq_iff_of_pos hstep]
    omega
  rw [rounds, hone]
  rfl

theorem rounds_of_lt (hstep : 0 < step.toInt) (hlt : l.index.toInt + step.toInt < l.limit.toInt) :
    l.rounds step = (l.advanced step).rounds step + 1 := by
  have hdistance : l.limit.toInt - l.index.toInt + (step.toInt - 1) =
      (l.limit.toInt - (l.advanced step).index.toInt + (step.toInt - 1)) + step.toInt := by
    rw [toInt_index_advanced hstep hlt]
    omega
  have hnonneg : 0 ≤ (l.limit.toInt - (l.advanced step).index.toInt + (step.toInt - 1)) / step.toInt := by
    refine Int.ediv_nonneg ?_ (Int.le_of_lt hstep)
    rw [toInt_index_advanced hstep hlt]
    omega
  rw [rounds, hdistance, Int.add_ediv_of_dvd_right (Int.dvd_refl _), Int.ediv_self (Int.ne_of_gt hstep),
    Int.toNat_add hnonneg (by decide)]
  rfl

theorem rounds_ne_zero (hstep : 0 < step.toInt) (hlt : l.index.toInt < l.limit.toInt) : l.rounds step ≠ 0 := by
  by_cases hle : l.limit.toInt ≤ l.index.toInt + step.toInt
  · rw [rounds_of_le hstep hlt hle]
    decide
  · rw [rounds_of_lt hstep (Int.not_le.mp hle)]
    exact Nat.succ_ne_zero _

end LoopFrame

/-! ### Loops in loaded code -/

/-- A loop with a step in loaded code: the offsets of its body and of its end, and the place of the top cell there. -/
structure Loop where
  kernel : Kernel
  code : LoadedCode
  instructions : List Instruction
  consists : code.Consists instructions
  place : CacheState
  start : Nat
  back : Nat
  start_le : start ≤ back
  placed : Placed instructions back (place.filling ++ plusLoopEnd (back + codeSize place.filling) start)

namespace Loop

variable {L : Loop} {l : LoopFrame} {step : Cell} {m m' : Machine}

def ending (L : Loop) : List Instruction :=
  L.place.filling ++ plusLoopEnd (L.back + codeSize L.place.filling) L.start

def behind (L : Loop) : Nat :=
  L.back + codeSize L.ending

/-- The step on top of the data stack, and index and limit on the return stack. -/
def status (L : Loop) (l : LoopFrame) (step : Cell) (output : List UInt8) : Status :=
  ⟨L.place, [step], l.cells, output⟩

/-- The machine is at the end of the loop, with the step on top of the data stack and index and limit on the return
stack, and the two do not overlap. -/
structure AtEnd (L : Loop) (l : LoopFrame) (step : Cell) (m : Machine) : Prop where
  ip : m.ip = L.code.address L.back
  top : match L.place with
    | .cached => m.reg rax = step
    | .spilled => m.mem.cell (m.reg rbx) = step
  index : m.mem.cell (m.reg rsp) = l.index
  limit : m.mem.cell (m.reg rsp + 8) = l.limit
  laid : m.Laid (fun _ => 0) (L.status l step m.output).size

theorem AtEnd.represents (h : L.AtEnd l step m) : m.Represents (L.status l step m.output) := by
  have htop := h.top
  refine ⟨fun hplace => ?_, fun s i a hi => ?_, rfl⟩
  · rw [show L.place = .cached from hplace] at htop
    exact congrArg some htop.symm
  · cases s with
    | data =>
      cases hplace : L.place with
      | cached =>
        rw [status, hplace] at hi
        cases hi
      | spilled =>
        rw [status, hplace] at hi
        rw [hplace] at htop
        rcases i with _ | i <;> cases hi
        exact (congrArg m.mem.cell (BitVec.add_zero _)).trans htop
    | ret =>
      rcases i with _ | _ | i <;> cases hi
      · exact (congrArg m.mem.cell (BitVec.add_zero _)).trans h.index
      · exact h.limit

/-- What the end of the loop does. -/
structure Turns (L : Loop) (l : LoopFrame) (step : Cell) (m m' : Machine) : Prop where
  reaches : Reaches L.kernel L.code m m'
  index : m'.mem.cell (m.reg rsp) = l.index + step
  limit : m'.mem.cell (m.reg rsp + 8) = l.limit
  popped : m'.reg rbx = m.reg rbx + BitVec.ofNat 64 (8 * (L.status l step m.output).size .data)
  output : m'.output = m.output
  memory : ∀ x, (∀ s, ¬m.Spans s 0 ((L.status l step m.output).size s) x.toNat) → m'.mem x = m.mem x
  next : if l.Crosses step ∨ l.index + step = l.limit
    then m'.ip = L.code.address L.behind ∧ m'.reg rsp = m.reg rsp + 16
    else m'.ip = L.code.address L.start ∧ m'.reg rsp = m.reg rsp

theorem performs_dropLoop (kernel : Kernel) {code : LoadedCode} {instructions : List Instruction} {p : Nat}
    (hcode : code.Consists instructions) (hip : m.ip = code.address p) (hi : Placed instructions p [dropLoop]) :
    ∃ m', Performs kernel code m [] m' ∧ m'.ip = code.address (p + codeSize [dropLoop]) ∧ m'.reg rbx = m.reg rbx ∧
      m'.reg rsp = m.reg rsp + 16 ∧ m'.mem = m.mem ∧ m'.output = m.output := by
  obtain ⟨m', hm', hrbx, hrsp, hmem, houtput⟩ :
      ∃ m', m.perform kernel code p [dropLoop] = some m' ∧ m'.reg rbx = m.reg rbx ∧ m'.reg rsp = m.reg rsp + 16 ∧
        m'.mem = m.mem ∧ m'.output = m.output :=
    ⟨_, rfl, rfl, rfl, rfl, rfl⟩
  obtain ⟨hperforms, hend⟩ := Performs.block hcode hip hi (by decide) hm'
  exact ⟨m', hperforms, hend, hrbx, hrsp, hmem, houtput⟩

theorem start_lt (L : Loop) : L.start < 2 ^ 31 := by
  have hle := L.placed.add_codeSize_le
  have hsize := L.consists.size
  have hstart := L.start_le
  omega

/-- **The end of a loop adds the step, takes it from the stack and leaves exactly at the boundary.** -/
theorem exists_turns (h : L.AtEnd l step m) : ∃ m', L.Turns l step m m' := by
  obtain ⟨e, hend, hdrop, htakes⟩ : ∃ e, L.behind = e + codeSize [dropLoop] ∧ Placed L.instructions e [dropLoop] ∧
      (h.laid.process L.kernel L.consists).Takes L.back ⟨L.place, [step], l.cells ++ [], m.output⟩
        (if l.Crosses step ∨ l.index + step = l.limit then e else L.start)
        ⟨.spilled, [], LoopFrame.cells ⟨l.index + step, l.limit⟩ ++ [], m.output⟩ :=
    Process.takes_stepping (P := h.laid.process L.kernel L.consists) (p := L.back) (l := l) L.placed L.start_lt
  obtain ⟨m₁, hm₁, hip₁, hrep, hpointers, hsame⟩ :=
    h.represents.takes_alone L.consists h.ip (fun _ => List.cons_ne_nil _ _) h.laid htakes
  have hrbx : m₁.reg rbx = m.reg rbx + BitVec.ofNat 64 (8 * (L.status l step m.output).size .data) :=
    Machine.pointer_eq_add (hpointers .data)
  have hrsp : m₁.reg rsp = m.reg rsp := BitVec.eq_of_toNat_eq (Nat.add_right_cancel (hpointers .ret))
  have hindex : m₁.mem.cell (m.reg rsp) = l.index + step := by
    have hcell : m₁.mem.cell (m₁.reg rsp + 0#64) = l.index + step := hrep.stored .ret 0 _ rfl
    rwa [BitVec.add_zero, hrsp] at hcell
  have hlimit : m₁.mem.cell (m.reg rsp + 8) = l.limit := by
    rw [← hrsp]
    exact hrep.stored .ret 1 _ rfl
  by_cases hleaves : l.Crosses step ∨ l.index + step = l.limit
  · rw [if_pos hleaves] at hip₁
    obtain ⟨m', hm', hip', hrbx', hrsp', hmem', houtput'⟩ := performs_dropLoop L.kernel L.consists hip₁ hdrop
    refine ⟨m', hm₁.trans hm'.reaches, ?_, ?_, hrbx'.trans hrbx, houtput'.trans hrep.output, fun x hx => ?_, ?_⟩
    · rw [hmem', hindex]
    · rw [hmem', hlimit]
    · rw [hmem', hsame x hx]
    · rw [if_pos hleaves, hip', hrsp', hrsp, hend]
      exact ⟨rfl, rfl⟩
  · rw [if_neg hleaves] at hip₁
    refine ⟨m₁, hm₁, hindex, hlimit, hrbx, hrep.output, hsame, ?_⟩
    rw [if_neg hleaves]
    exact ⟨hip₁, hrsp⟩

/-! ### Rounds -/

/-- From the start of the body, the body runs `n` times before the machine is behind the loop: it gets to the end with
the step on top and the frame in place, and the end adds the step to the index of the frame. -/
def Rounds (L : Loop) (step : Cell) : Nat → LoopFrame → Machine → Prop
  | 0, _, m => m.ip = L.code.address L.behind
  | n + 1, l, m => m.ip = L.code.address L.start ∧ ∃ m₁ m', Reaches L.kernel L.code m m₁ ∧ L.AtEnd l step m₁ ∧
    L.Turns l step m₁ m' ∧ L.Rounds step n (l.advanced step) m'

/-- What `I` says of machines at the start of the body, the body keeps: it gets to the end with the step on top and the
frame in place, and where the end goes back, `I` holds again. -/
structure Keeps (L : Loop) (step : Cell) (I : LoopFrame → Machine → Prop) : Prop where
  start : ∀ l m, I l m → m.ip = L.code.address L.start
  run : ∀ l m, I l m → ∃ m₁, Reaches L.kernel L.code m m₁ ∧ L.AtEnd l step m₁ ∧
    ∀ m', L.Turns l step m₁ m' → ¬(l.Crosses step ∨ l.index + step = l.limit) → I (l.advanced step) m'

/-- The start of the body is not behind the loop. -/
theorem address_start_ne_behind (L : Loop) : L.code.address L.start ≠ L.code.address L.behind := by
  intro heq
  have hlt : L.back < L.behind := by
    rw [behind, ending, plusLoopEnd_eq, ← List.append_assoc, codeSize_append]
    exact Nat.lt_add_of_pos_right (Nat.add_pos_right _ (by decide))
  have hle : L.behind ≤ codeSize L.instructions := L.placed.add_codeSize_le
  have hsize := L.consists.size
  have hstart := L.start_le
  have hoffsets := congrArg BitVec.toNat ((BitVec.add_right_inj _).mp heq)
  rw [BitVec.toNat_ofNat, BitVec.toNat_ofNat, Nat.mod_eq_of_lt (by omega), Nat.mod_eq_of_lt (by omega)] at hoffsets
  omega

/-- The number of rounds is that of the steps up to the limit. -/
theorem Rounds.eq_rounds {n : Nat} (h : L.Rounds step n l m) (hip : m.ip = L.code.address L.start)
    (hstep : 0 < step.toInt) (hlt : l.index.toInt < l.limit.toInt) : n = l.rounds step := by
  induction n generalizing l m with
  | zero => exact absurd (hip.symm.trans h) L.address_start_ne_behind
  | succ n ih =>
    obtain ⟨-, m₁, m', -, -, hturns, hrest⟩ := h
    have hnext := hturns.next
    by_cases hle : l.limit.toInt ≤ l.index.toInt + step.toInt
    · rw [if_pos ((LoopFrame.leaves_iff_of_pos hstep hlt).mpr hle)] at hnext
      cases n with
      | zero => exact (LoopFrame.rounds_of_le hstep hlt hle).symm
      | succ n => exact absurd (hrest.1.symm.trans hnext.1) L.address_start_ne_behind
    · rw [if_neg (mt (LoopFrame.leaves_iff_of_pos hstep hlt).mp hle)] at hnext
      have hbelow := Int.not_le.mp hle
      rw [LoopFrame.rounds_of_lt hstep hbelow, ← ih hrest hnext.1]
      rw [LoopFrame.toInt_index_advanced hstep hbelow]
      exact hbelow

variable {I : LoopFrame → Machine → Prop}

/-- There are that many rounds if the body gets to the end each time. -/
theorem Keeps.rounds (h : L.Keeps step I) (hI : I l m) (hstep : 0 < step.toInt)
    (hlt : l.index.toInt < l.limit.toInt) : L.Rounds step (l.rounds step) l m := by
  induction hn : l.rounds step generalizing l m with
  | zero => exact absurd hn (LoopFrame.rounds_ne_zero hstep hlt)
  | succ n ih =>
    obtain ⟨m₁, hm₁, hend, hback⟩ := h.run l m hI
    obtain ⟨m', hm'⟩ := exists_turns hend
    refine ⟨h.start l m hI, m₁, m', hm₁, hend, hm', ?_⟩
    by_cases hle : l.limit.toInt ≤ l.index.toInt + step.toInt
    · rw [LoopFrame.rounds_of_le hstep hlt hle] at hn
      obtain rfl : n = 0 := (Nat.succ.inj hn).symm
      have hnext := hm'.next
      rw [if_pos ((LoopFrame.leaves_iff_of_pos hstep hlt).mpr hle)] at hnext
      exact hnext.1
    · have hbelow := Int.not_le.mp hle
      rw [LoopFrame.rounds_of_lt hstep hbelow] at hn
      refine ih (hback m' hm' (mt (LoopFrame.leaves_iff_of_pos hstep hlt).mp hle)) ?_ (Nat.succ.inj hn)
      rw [LoopFrame.toInt_index_advanced hstep hbelow]
      exact hbelow

/-- The end of the loop is what the compiler adds in the state `s`. -/
structure Closes (L : Loop) (s : Compiler) : Prop where
  place : L.place = s.cache.state
  start : L.start = s.backTarget
  back : L.back = s.offset

end Loop

/-- **The end of a loop with a step leaves exactly at the boundary.**  The compiler adds the instructions of the end,
which from any stacks do one turn; in signed numbers the boundary is the limit, from either side; and a body with a
constant step upwards runs as often as the step fits into the distance, rounded up. -/
theorem plusLoop_exact {s s' : Compiler} {token : Token} (h : compilePlusLoop token.pos s = .ok () s') {L : Loop}
    (hL : L.Closes s) :
    (∀ front, s.code.Holds front → s'.code.Holds (front ++ L.ending)) ∧ s'.offset = L.behind ∧
    s'.cache.state = .spilled ∧
    (∀ l step m, L.AtEnd l step m → ∃ m', L.Turns l step m m') ∧
    (∀ (l : LoopFrame) (step : Cell), 0 < step.toInt → l.index.toInt < l.limit.toInt →
      ((l.Crosses step ∨ l.index + step = l.limit) ↔ l.limit.toInt ≤ l.index.toInt + step.toInt)) ∧
    (∀ (l : LoopFrame) (step : Cell), step.toInt < 0 → l.limit.toInt ≤ l.index.toInt →
      ((l.Crosses step ∨ l.index + step = l.limit) ↔ l.index.toInt + step.toInt ≤ l.limit.toInt)) ∧
    ∀ step I, L.Keeps step I → ∀ l m, I l m → 0 < step.toInt → l.index.toInt < l.limit.toInt →
      ∀ n, L.Rounds step n l m ↔ n = l.rounds step := by
  have hcompiled : Compiled s (.keyword .plusLoop token 0) s' := compiled_plusLoop h
  have hending : s.itemCode (.keyword .plusLoop token 0) = L.ending := by
    rw [Loop.ending, hL.place, hL.start, hL.back]
    rfl
  refine ⟨fun front hfront => ?_, ?_, hcompiled.state, fun l step m => Loop.exists_turns,
    fun l step => LoopFrame.leaves_iff_of_pos, fun l step => LoopFrame.leaves_iff_of_neg, ?_⟩
  · have hfixes : s.fixes (.keyword .plusLoop token 0) = [] := rfl
    have hholds := hcompiled.code.2 (front ++ L.ending) (by rw [hending]; exact hfront.append _) nofun
    rwa [hfixes, sending_nil, redirect_none] at hholds
  · rw [hcompiled.offset_eq_behind, Loop.behind, hL.back, ← hending]
    rfl
  · intro step I hkeeps l m hI hstep hlt n
    constructor
    · intro hrounds
      exact hrounds.eq_rounds (hkeeps.start l m hI) hstep hlt
    · rintro rfl
      exact hkeeps.rounds hI hstep hlt

/-- A body that is the step 3 alone runs four times from 0 to 10. -/
theorem plusLoop_exact_threes : ∃ s s' : Compiler, compilePlusLoop ⟨1, 1⟩ s = .ok () s' ∧
    ∀ kernel, ∃ (L : Loop) (m : Machine), L.Closes s ∧ L.kernel = kernel ∧ L.Rounds 3 4 ⟨0, 10⟩ m := by
  let body : List Instruction := [.movRegImm rax 3]
  let token : Token := ⟨"+loop", ⟨1, 1⟩⟩
  let s : Compiler :=
    { options := {}
      code := ⟨(assemble body).toArray⟩
      cache := { state := .cached }
      control := [⟨.«do» 0, token.pos, .spilled⟩] }
  have hs' := eq_ok_of_error? (r := compilePlusLoop token.pos s) (by decide +kernel)
  refine ⟨s, _, hs', fun kernel => ?_⟩
  let code : LoadedCode := ⟨0x4000B0, assemble (body ++ plusLoopEnd (codeSize body) 0)⟩
  let L : Loop := ⟨kernel, code, body ++ plusLoopEnd (codeSize body) 0, ⟨rfl, by decide, by decide⟩, .cached, 0,
    codeSize body, Nat.zero_le _, ⟨body, [], rfl, rfl⟩⟩
  let I : LoopFrame → Machine → Prop := fun l m => m.ip = code.address 0 ∧ m.reg rsp = 0x7fffffffe000 ∧
    m.mem.cell (m.reg rsp) = l.index ∧ m.mem.cell (m.reg rsp + 8) = l.limit
  have hkeeps : L.Keeps 3 I := by
    refine ⟨fun l m h => h.1, ?_⟩
    rintro l m ⟨hip, hrsp, hindex, hlimit⟩
    obtain ⟨m₁, hm₁, hrax, hrsp₁, hmem⟩ : ∃ m₁, m.perform kernel code 0 body = some m₁ ∧ m₁.reg rax = 3 ∧
        m₁.reg rsp = m.reg rsp ∧ m₁.mem = m.mem := ⟨_, rfl, rfl, rfl, rfl⟩
    obtain ⟨hperforms, hip₁⟩ := Performs.block L.consists hip ⟨[], _, rfl, rfl⟩ (by decide) hm₁
    rw [← hrsp₁, ← hmem] at hindex hlimit
    refine ⟨m₁, hperforms.reaches,
      ⟨hip₁, hrax, hindex, hlimit, ⟨fun _ => Nat.zero_le _, fun s => ?_, fun x hx _ => ?_⟩⟩,
      fun m' hturns hstays => ?_⟩
    · cases s with
      | data => exact (m₁.reg rbx).isLt
      | ret =>
        show (m₁.reg rsp).toNat + 16 < 2 ^ 64
        rw [hrsp₁, hrsp]
        decide
    · exact Nat.not_lt_of_le hx.1 hx.2
    · obtain ⟨hip', hrsp'⟩ : m'.ip = code.address 0 ∧ m'.reg rsp = m₁.reg rsp := by
        have hnext := hturns.next
        rwa [if_neg hstays] at hnext
      have hindex' := hturns.index
      have hlimit' := hturns.limit
      rw [← hrsp'] at hindex' hlimit'
      exact ⟨hip', hrsp'.trans (hrsp₁.trans hrsp), hindex', hlimit'⟩
  let m : Machine := ⟨code.address 0, fun _ => 0x7fffffffe000, {}, Memory.setCell (fun _ => 0) 0x7fffffffe008 10, []⟩
  have hI : I ⟨0, 10⟩ m := ⟨rfl, rfl, by decide, by decide⟩
  obtain ⟨-, -, -, -, -, -, hrounds⟩ := plusLoop_exact (L := L) hs' ⟨rfl, rfl, rfl⟩
  exact ⟨L, m, ⟨rfl, rfl, rfl⟩, rfl, (hrounds 3 I hkeeps ⟨0, 10⟩ m hI (by decide) (by decide) 4).mpr (by decide)⟩

end ForthElf
