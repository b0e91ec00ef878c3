import ForthElf.Proofs.Interpreter
import ForthElf.Proofs.Process

/-!
# What built-in words do

* `Primitive.computes` — the words that only work on the data stack;
* `Primitive.run_body` — **the code of such a word has the effect of the word**;
* `Process.takes_computing` and the lemmas behind it — whatever the place of the top cell, the code of a word takes the
  process from the stacks before the word to those after it.
-/

namespace ForthElf

open Register

namespace Primitive

/-- Whether a word computes a top cell from the upper cells of the data stack by straight code. -/
def computes : Primitive → Bool
  | .drop | .questionDup | .emit | .newline | .dot | .bye => false
  | p => !p.usesMemory && !p.usesReturnStack

/-- The code of a word between the two places of the top cell. -/
def body (p : Primitive) : List Instruction :=
  match p.recipe with
  | .block _ body _ => body
  | _ => []

theorem recipe_of_computes {p : Primitive} (h : p.computes) : p.recipe = .block .cached p.body .cached := by
  cases p <;> first | rfl | cases h

theorem eq_bye_of_halts {p : Primitive} {w : World} (h : p.effect w = .halts) : p = .bye := by
  cases p
  case bye => rfl
  case newline => cases h
  case div | mod =>
    simp only [effect, World.dividing, World.withData] at h
    split at h
    · split at h <;> cases h
    · cases h
  all_goals
    simp only [effect, World.onTop, World.onTwo, World.storing, World.print, World.withData] at h
    split at h <;> cases h

end Primitive

/-! ### Effects -/

namespace World

variable {w w' : World} {b : Cell} {rest : List Cell}

theorem eq_of_onTop {f : Cell → Cell} (hw : w.data = b :: rest) (h : w.onTop f = .goesOn w') :
    w' = { w with data := f b :: rest } := by
  rw [onTop, hw] at h
  cases h
  rfl

theorem exists_of_onTwo {f : Cell → Cell → Cell} (hw : w.data = b :: rest) (h : w.onTwo f = .goesOn w') :
    ∃ a lower, rest = a :: lower ∧ w' = { w with data := f a b :: lower } := by
  rw [onTwo, hw] at h
  rcases rest with _ | ⟨a, lower⟩ <;> cases h
  exact ⟨a, lower, rfl, rfl⟩

theorem exists_of_dividing {f : Cell → Cell → Cell} (hw : w.data = b :: rest) (h : w.dividing f = .goesOn w') :
    ∃ a lower, rest = a :: lower ∧ Cell.divides b a ∧ w' = { w with data := f a b :: lower } := by
  rw [dividing, hw] at h
  rcases rest with _ | ⟨a, lower⟩
  · cases h
  · dsimp only at h
    split at h <;> cases h
    exact ⟨a, lower, rfl, ‹_›, rfl⟩

end World

/-! ### Straight code -/

namespace View

theorem execute_idiv (kernel : Kernel) {v : View} {a : Cell} (hrax : v.reg rax = a)
    (hrdx : v.reg rdx = if a.msb then BitVec.allOnes 64 else 0) (h : Cell.divides (v.reg rcx) a) :
    v.execute kernel (.unary .idiv rcx) =
      some ((v.setReg rax (a.sdiv (v.reg rcx))).setReg rdx (a.srem (v.reg rcx))) := by
  have hdivide := Machine.divideSigned_eq (m := v.core) hrax hrdx h
  show v.compute kernel (.unary .idiv rcx) = _
  rw [compute, Machine.execute, Machine.unary]
  dsimp only [core] at hdivide ⊢
  rw [hdivide]
  rfl

/-- A division of the two upper cells leaves the quotient in `rax` and the remainder in `rdx`. -/
theorem run_division (kernel : Kernel) (reg : Register → BitVec 64) (flags : Flags) {a : Cell} (rest : List Cell)
    (ret : List (Option Cell)) (mem : Memory) (output : List UInt8) (h : Cell.divides (reg rax) a) :
    ∃ v', (View.mk reg flags (Stack.pair ((a :: rest).map some) ret) mem output).run kernel
        (Recipe.popOperands ++ [Instruction.cqo, .unary .idiv rcx]) = some v' ∧
      v'.reg rax = a.sdiv (reg rax) ∧ v'.reg rdx = a.srem (reg rax) ∧ v'.cells .data = rest.map some ∧
      v'.cells .ret = ret ∧ v'.output = output := by
  obtain ⟨v, hv, hrax, hrdx, hrcx, hdata, hret, houtput⟩ :
      ∃ v, (View.mk reg flags (Stack.pair ((a :: rest).map some) ret) mem output).run kernel
          (Recipe.popOperands ++ [Instruction.cqo]) = some v ∧
        v.reg rax = a ∧ v.reg rdx = (if a.msb then BitVec.allOnes 64 else 0) ∧ v.reg rcx = reg rax ∧
        v.cells .data = rest.map some ∧ v.cells .ret = ret ∧ v.output = output :=
    ⟨_, rfl, rfl, rfl, rfl, rfl, rfl, rfl⟩
  have hdivide := execute_idiv kernel hrax hrdx (by rwa [hrcx])
  rw [hrcx] at hdivide
  refine ⟨(v.setReg rax (a.sdiv (reg rax))).setReg rdx (a.srem (reg rax)), ?_, rfl, rfl, hdata, hret, houtput⟩
  show View.run kernel _ (Recipe.popOperands ++ [Instruction.cqo] ++ [Instruction.unary .idiv rcx]) = _
  rw [run_append, hv, Option.bind_some, run, hdivide]
  rfl

end View

theorem cons_map_some {a b : Cell} {rest : List Cell} (h : a = b) :
    some a :: rest.map some = (b :: rest).map some := by
  rw [h, List.map_cons]

/-- **The code of a word has the effect of the word.** -/
theorem Primitive.run_body {p : Primitive} (hp : p.computes) (kernel : Kernel) {reg : Register → BitVec 64}
    (flags : Flags) {rest : List Cell} (ret : List (Option Cell)) (mem : Memory) {w w' : World}
    (hw : w.data = reg rax :: rest) (he : p.effect w = .goesOn w') :
    ∃ v', (View.mk reg flags (Stack.pair (rest.map some) ret) mem w.output).run kernel p.body = some v' ∧
      v'.stackIn .cached = w'.data.map some ∧ v'.cells .ret = ret ∧ v'.output = w'.output := by
  unfold effect at he
  cases p
  -- Words that move cells.
  case dup =>
    simp only [hw] at he
    cases he
    exact ⟨_, rfl, rfl, rfl, rfl⟩
  case swap | «over» | tuck | twoDup =>
    simp only [hw] at he
    rcases rest with _ | ⟨a, rest⟩ <;> cases he
    exact ⟨_, rfl, rfl, rfl, rfl⟩
  case nip =>
    simp only [hw] at he
    rcases rest with _ | ⟨a, rest⟩ <;> cases he
    exact ⟨_, rfl, rfl, rfl, rfl⟩
  case rot | minusRot =>
    simp only [hw] at he
    rcases rest with _ | ⟨b, _ | ⟨a, rest⟩⟩ <;> cases he
    exact ⟨_, rfl, rfl, rfl, rfl⟩
  -- Words on the top cell.
  case negate | onePlus | oneMinus | invert =>
    obtain rfl := World.eq_of_onTop hw he
    exact ⟨_, rfl, rfl, rfl, rfl⟩
  case abs =>
    obtain rfl := World.eq_of_onTop hw he
    refine ⟨_, rfl, cons_map_some ((Machine.reg_moveIf ..).trans ?_), rfl, rfl⟩
    exact ite_msb_neg (reg rax)
  case zeroEqual =>
    obtain rfl := World.eq_of_onTop hw he
    exact ⟨_, rfl, cons_map_some (neg_lowByte (Condition.holds_equal_test _)), rfl, rfl⟩
  case zeroLess =>
    obtain rfl := World.eq_of_onTop hw he
    exact ⟨_, rfl, cons_map_some (neg_lowByte (Condition.holds_sign_test _)), rfl, rfl⟩
  case zeroGreater =>
    obtain rfl := World.eq_of_onTop hw he
    exact ⟨_, rfl, cons_map_some (neg_lowByte (Condition.holds_greater_test _)), rfl, rfl⟩
  -- Words on two cells.
  case add | sub | mul | and | or | xor =>
    obtain ⟨a, rest, rfl, rfl⟩ := World.exists_of_onTwo hw he
    exact ⟨_, rfl, rfl, rfl, rfl⟩
  case leftShift | rightShift =>
    obtain ⟨a, rest, rfl, rfl⟩ := World.exists_of_onTwo hw he
    exact ⟨_, rfl, cons_map_some (Machine.reg_shift_self ..), rfl, rfl⟩
  case max =>
    obtain ⟨a, rest, rfl, rfl⟩ := World.exists_of_onTwo hw he
    refine ⟨_, rfl, cons_map_some ((Machine.reg_moveIf ..).trans ?_), rfl, rfl⟩
    exact congrArg (fun c : Bool => if c then _ else _) (Condition.holds_less_compare ..)
  case min =>
    obtain ⟨a, rest, rfl, rfl⟩ := World.exists_of_onTwo hw he
    refine ⟨_, rfl, cons_map_some ((Machine.reg_moveIf ..).trans ?_), rfl, rfl⟩
    exact congrArg (fun c : Bool => if c then _ else _) (Condition.holds_greater_compare ..)
  case equal =>
    obtain ⟨a, rest, rfl, rfl⟩ := World.exists_of_onTwo hw he
    exact ⟨_, rfl, cons_map_some (neg_lowByte (Condition.holds_equal_compare ..)), rfl, rfl⟩
  case notEqual =>
    obtain ⟨a, rest, rfl, rfl⟩ := World.exists_of_onTwo hw he
    exact ⟨_, rfl, cons_map_some (neg_lowByte (Condition.holds_notEqual_compare ..)), rfl, rfl⟩
  case less =>
    obtain ⟨a, rest, rfl, rfl⟩ := World.exists_of_onTwo hw he
    exact ⟨_, rfl, cons_map_some (neg_lowByte (Condition.holds_less_compare ..)), rfl, rfl⟩
  case greater =>
    obtain ⟨a, rest, rfl, rfl⟩ := World.exists_of_onTwo hw he
    exact ⟨_, rfl, cons_map_some (neg_lowByte (Condition.holds_greater_compare ..)), rfl, rfl⟩
  case div =>
    obtain ⟨a, rest, rfl, hdivides, rfl⟩ := World.exists_of_dividing hw he
    obtain ⟨v', hrun, hrax, -, hcells, hret, houtput⟩ :=
      View.run_division kernel reg flags rest ret mem w.output hdivides
    refine ⟨v', hrun, ?_, hret, houtput⟩
    rw [View.stackIn, hrax, hcells]
    rfl
  case mod =>
    obtain ⟨a, rest, rfl, hdivides, rfl⟩ := World.exists_of_dividing hw he
    obtain ⟨v', hrun, -, hrdx, hcells, hret, houtput⟩ :=
      View.run_division kernel reg flags rest ret mem w.output hdivides
    refine ⟨v'.setReg rax (v'.reg rdx), ?_, ?_, hret, houtput⟩
    · show View.run kernel _
        (Recipe.popOperands ++ [Instruction.cqo, .unary .idiv rcx] ++ [Instruction.movRegReg rax rdx]) = _
      rw [View.run_append, hrun]
      rfl
    · show some (v'.reg rdx) :: v'.cells .data = _
      rw [hrdx, hcells]
      rfl
  all_goals cases hp

theorem Primitive.data_ne_nil {p : Primitive} (hp : p.computes) {w w' : World} (he : p.effect w = .goesOn w') :
    w.data ≠ [] := by
  intro hw
  unfold effect World.onTop World.onTwo World.dividing at he
  rw [hw] at he
  cases p <;> first | exact absurd hp (by decide) | cases he

/-- The free cells below the data stack that a word fills if the top cell is in `rax`. -/
def Primitive.reserve : Primitive → Nat
  | .twoDup | .newline => 2
  | .dup | .over | .tuck | .questionDup | .fromReturn | .returnFetch | .emit | .dot | .bye => 1
  | _ => 0

/-- The free cells below the return stack that a word fills. -/
def Primitive.returnReserve : Primitive → Nat
  | .dot => 5
  | .toReturn => 1
  | _ => 0

theorem Primitive.pushes_data_body (p : Primitive) (hp : p.computes) : pushes .data p.body = p.reserve := by
  cases p <;> first | rfl | cases hp

theorem Primitive.pushes_ret_body (p : Primitive) (hp : p.computes) : pushes .ret p.body = 0 := by
  cases p <;> first | rfl | cases hp

theorem Primitive.ret_of_computes {p : Primitive} (hp : p.computes) {w w' : World} (he : p.effect w = .goesOn w') :
    w'.ret = w.ret := by
  unfold effect at he
  cases p <;> cases hp
  case negate | onePlus | oneMinus | abs | invert | zeroEqual | zeroLess | zeroGreater =>
    cases hw : w.data with
    | nil => simp [World.onTop, hw] at he
    | cons b rest => rw [World.eq_of_onTop hw he]
  case add | sub | mul | max | min | and | or | xor | leftShift | rightShift | equal | notEqual | less | greater =>
    cases hw : w.data with
    | nil => simp [World.onTwo, hw] at he
    | cons b rest =>
      obtain ⟨_, _, _, rfl⟩ := World.exists_of_onTwo hw he
      rfl
  case div | mod =>
    cases hw : w.data with
    | nil => simp [World.dividing, hw] at he
    | cons b rest =>
      obtain ⟨_, _, _, _, rfl⟩ := World.exists_of_dividing hw he
      rfl
  all_goals
    dsimp only at he
    split at he <;> cases he
    rfl

theorem Primitive.returnReserve_le (p : Primitive) : p.returnReserve ≤ 5 := by
  cases p <;> decide

/-- A word fills no free cell beyond one more than what it finds and beyond what it leaves. -/
theorem Primitive.length_add_reserve_le (p : Primitive) {w w' : World} (he : p.effect w = .goesOn w') {n : Nat}
    (hbefore : w.data.length < n) (hafter : w'.data.length ≤ n) : w.data.length + p.reserve ≤ n + 1 := by
  cases p
  case twoDup =>
    unfold effect at he
    dsimp only at he
    split at he <;> cases he
    next hw =>
      rw [hw] at hbefore ⊢
      simp only [List.length_cons, reserve] at hafter ⊢
      omega
  all_goals
    simp only [reserve]
    omega

theorem World.exists_of_dividing_goesOn {w w' : World} {f : Cell → Cell → Cell} (h : w.dividing f = .goesOn w') :
    ∃ b a rest, w.data = b :: a :: rest ∧ Cell.divides b a ∧ w' = { w with data := f a b :: rest } := by
  cases hw : w.data with
  | nil => simp [dividing, hw] at h
  | cons b rest =>
    obtain ⟨a, lower, rfl, hdivides, rfl⟩ := exists_of_dividing hw h
    exact ⟨b, a, lower, rfl, hdivides, rfl⟩

/-- **A word does the same above other cells.** -/
theorem Primitive.effect_append (p : Primitive) {w w' : World} (he : p.effect w = .goesOn w') (data ret : List Cell) :
    p.effect { w with data := w.data ++ data, ret := w.ret ++ ret } =
      .goesOn { w' with data := w'.data ++ data, ret := w'.ret ++ ret } := by
  obtain ⟨cells, retCells, mem, output⟩ := w
  cases p
  case div | mod =>
    obtain ⟨b, a, rest, hw, hdivides, rfl⟩ := World.exists_of_dividing_goesOn he
    obtain rfl : cells = b :: a :: rest := hw
    exact if_pos hdivides
  case questionDup =>
    rcases cells with _ | ⟨a, rest⟩ <;> cases he
    simp only [effect, World.withData, List.cons_append]
    split <;> rfl
  case newline =>
    cases he
    rfl
  case fromReturn | returnFetch =>
    rcases retCells with _ | ⟨a, rest⟩ <;> cases he
    rfl
  case bye => cases he
  all_goals
    rcases cells with _ | ⟨c, _ | ⟨b, _ | ⟨a, rest⟩⟩⟩ <;> first | cases he; rfl | cases he

theorem Primitive.effect_of_ret (p : Primitive) (hp : p.usesReturnStack = false) {w w' : World}
    (he : p.effect w = .goesOn w') (ret : List Cell) :
    p.effect { w with ret := ret } = .goesOn { w' with ret := ret } := by
  obtain ⟨cells, retCells, mem, output⟩ := w
  cases p
  case div | mod =>
    obtain ⟨b, a, rest, hw, hdivides, rfl⟩ := World.exists_of_dividing_goesOn he
    obtain rfl : cells = b :: a :: rest := hw
    exact if_pos hdivides
  case newline =>
    cases he
    rfl
  case toReturn | fromReturn | returnFetch => cases hp
  case bye => cases he
  all_goals
    rcases cells with _ | ⟨c, _ | ⟨b, _ | ⟨a, rest⟩⟩⟩ <;> first | cases he; rfl | cases he

/-! ### Words at their place -/

namespace Process

variable {P : Process} {q : Nat} {place : CacheState} {a : Cell} {data ret : List Cell} {output : List UInt8}
    {w w' : World}

theorem takes_computing {p : Primitive} (hp : p.computes) {printNumber : Nat}
    (hblock : Placed P.instructions q (p.recipe.code printNumber q place)) (he : p.effect w = .goesOn w')
    (hroom : w.data.length + p.reserve ≤ P.room .data + 1) :
    P.Takes q ⟨place, w.data, ret, w.output⟩ (q + codeSize (p.recipe.code printNumber q place))
      ⟨.cached, w'.data, ret, w'.output⟩ := by
  rw [Primitive.recipe_of_computes hp] at hblock ⊢
  change Placed P.instructions q (place.settling .cached ++ p.body) at hblock
  show P.Takes q _ (q + codeSize (place.settling .cached ++ p.body)) _
  rw [codeSize_append, ← Nat.add_assoc]
  refine (takes_settling hblock.left nofun fun _ => Primitive.data_ne_nil hp he).trans ?_
  cases hw : w.data with
  | nil => exact absurd hw (Primitive.data_ne_nil hp he)
  | cons b rest =>
    rw [hw, List.length_cons] at hroom
    refine keeps_run hblock.right (HasRoom.fits fun s hs => ?_) fun v hv => ?_
    · cases s with
      | data =>
        rw [p.pushes_data_body hp]
        show rest.length + p.reserve ≤ P.room .data
        omega
      | ret => exact absurd (p.pushes_ret_body hp) hs
    · obtain ⟨reg, flags, mem, rest, rfl, hdata⟩ := hv.exists_of_cached
      rw [hdata] at hw
      obtain ⟨v', hrun, hstack, hret, houtput⟩ := Primitive.run_body hp P.kernel flags (ret.map some) mem hw he
      exact ⟨v', hrun, hstack, hret, houtput⟩

theorem takes_dropCell (hi : Placed P.instructions q [dropCell]) :
    P.Takes q ⟨.spilled, a :: data, ret, output⟩ (q + codeSize [dropCell]) ⟨.spilled, data, ret, output⟩ := by
  refine takes_run hi (hasRoom_of_pushes_eq_zero rfl rfl) fun v hv => ?_
  obtain ⟨reg, flags, mem, rfl⟩ := hv.exists_of_spilled
  exact ⟨_, rfl, rfl, rfl, rfl⟩

theorem takes_discard {printNumber : Nat} (hblock : Placed P.instructions q (Recipe.discard.code printNumber q place)) :
    P.Takes q ⟨place, a :: data, ret, output⟩ (q + codeSize (Recipe.discard.code printNumber q place))
      ⟨.spilled, data, ret, output⟩ := by
  cases place with
  | cached =>
    refine Keeps.weaken .refl fun v hv => ⟨?_, hv.ret, hv.output⟩
    exact (List.cons.inj hv.data).2
  | spilled => exact takes_dropCell hblock

theorem takes_writeCell (hblock : Placed P.instructions q writeCell) :
    P.Takes q ⟨.spilled, a :: data, ret, output⟩ (q + codeSize writeCell)
      ⟨.spilled, a :: data, ret, output ++ [a.lowByte]⟩ := by
  have hsplit : writeCell =
      [Instruction.movReg32Imm rax 1, .movReg32Imm rdi 1, .movRegReg rsi rbx, .movReg32Imm rdx 1] ++
        [Instruction.syscall] := rfl
  rw [hsplit] at hblock ⊢
  rintro mem m v hm ⟨hv, rfl⟩
  obtain ⟨v₁, hrun, hrax, hrdi, hrsi, hrdx, hcells, houtput⟩ :
      ∃ v₁, v.run P.kernel [.movReg32Imm rax 1, .movReg32Imm rdi 1, .movRegReg rsi rbx, .movReg32Imm rdx 1] = some v₁ ∧
        v₁.reg rax = 1 ∧ v₁.reg rdi = 1 ∧ v₁.reg rsi = v₁.reg rbx ∧ v₁.reg rdx = 1 ∧ v₁.cells = v.cells ∧
        v₁.output = v.output :=
    ⟨_, rfl, rfl, rfl, rfl, rfl, rfl, rfl⟩
  obtain ⟨m₁, hm₁, h₁⟩ := hm.run P.consists hblock.left hrun fun s => (hm.looks.holds s).room
  -- The byte that is written is the lowest of the top cell.
  have hdata : (v₁.cells .data)[0]? = some (some a) := by
    have hstack : v.cells .data = (a :: data).map some := hv.data
    rw [hcells, hstack]
    rfl
  have htop : m₁.mem.cell (v₁.reg rbx) = a := by
    have hcell := (h₁.looks.holds .data).cell_eq hdata
    rwa [Nat.mul_zero, BitVec.add_zero] at hcell
  have htext : m₁.mem.read (v₁.reg rsi) (v₁.reg rdx).toNat = [a.lowByte] := by
    rw [hrsi, hrdx, ← htop, Memory.lowByte_cell]
    rfl
  obtain ⟨v₂, m₂, hm₂, h₂, hcells', houtput', hmem', -⟩ := h₁.write P.consists hblock.right hrax hrdi htext
  refine ⟨m₂, v₂, hm₁.reaches.trans hm₂.reaches, ?_, ⟨?_, ?_, ?_⟩, hmem'.trans (View.mem_of_run hrun)⟩
  · rw [codeSize_append, ← Nat.add_assoc]
    exact h₂
  · rw [View.stackIn, hcells', hcells]
    exact hv.data
  · rw [hcells', hcells]
    exact hv.ret
  · rw [houtput', houtput, hv.output]

/-- The code of `?dup` with the top cell in `rax`. -/
theorem takes_questionDup
    (hblock : Placed P.instructions q
      ([Instruction.test rax rax] ++ [Instruction.branch (.jumpIf .equal) (skipping pushTop)] ++ pushTop))
    (hroom : data.length < P.room .data) :
    P.Takes q ⟨.cached, a :: data, ret, output⟩ (q + codeSize Primitive.questionDup.body)
      ⟨.cached, if a = 0 then a :: data else a :: a :: data, ret, output⟩ := by
  have hend : (q + codeSize [.test rax rax] + (Branch.jumpIf .equal).size : Int) + (skipping pushTop).toInt =
      (q + codeSize Primitive.questionDup.body : Nat) := by
    have hsizes : (codeSize [.test rax rax] + (Branch.jumpIf .equal).size : Int) + (skipping pushTop).toInt =
        codeSize Primitive.questionDup.body := by decide
    omega
  have htest : P.Takes q ⟨.cached, a :: data, ret, output⟩
      (if a = 0 then q + codeSize Primitive.questionDup.body
        else q + codeSize [.test rax rax] + (Branch.jumpIf .equal).size) ⟨.cached, a :: data, ret, output⟩ := by
    refine keeps_runJumpIf hblock.left hend (HasRoom.fits (hasRoom_of_pushes_eq_zero rfl rfl)) fun v hv => ?_
    obtain ⟨reg, flags, mem, rest, rfl, hdata⟩ := hv.exists_of_cached
    cases hdata
    exact ⟨_, rfl, Condition.holds_equal_test _, rfl, rfl, rfl⟩
  refine htest.trans ?_
  by_cases hzero : a = 0
  · rw [if_pos hzero, if_pos hzero]
    exact .refl
  · rw [if_neg hzero, if_neg hzero]
    refine takes_run hblock.right (fun s hs => ?_) fun v hv => ?_
    · cases s with
      | data => exact hroom
      | ret => exact absurd rfl hs
    · obtain ⟨reg, flags, mem, rest, rfl, hdata⟩ := hv.exists_of_cached
      cases hdata
      exact ⟨_, rfl, rfl, rfl, rfl⟩

theorem takes_emit (hblock : Placed P.instructions q (writeCell ++ [dropCell])) :
    P.Takes q ⟨.spilled, a :: data, ret, output⟩ (q + codeSize Primitive.emit.body)
      ⟨.spilled, data, ret, output ++ [a.lowByte]⟩ :=
  (takes_writeCell hblock.left).trans (takes_dropCell hblock.right)

/-- The code of `cr` with the stack in memory uses one more cell. -/
theorem takes_newline
    (hblock : Placed P.instructions q
      ([Instruction.aluRegImm .sub rbx 8, .storeImm (.at rbx) 10] ++ (writeCell ++ [dropCell])))
    (hroom : data.length < P.room .data) :
    P.Takes q ⟨.spilled, data, ret, output⟩ (q + codeSize Primitive.newline.body)
      ⟨.spilled, data, ret, output ++ [10]⟩ := by
  refine Keeps.trans ?_ (takes_emit (a := 10) hblock.right)
  refine takes_run hblock.left (fun s hs => ?_) fun v hv => ?_
  · cases s with
    | data => exact hroom
    | ret => exact absurd rfl hs
  · obtain ⟨reg, flags, mem, rfl⟩ := hv.exists_of_spilled
    exact ⟨_, rfl, rfl, rfl, rfl⟩

theorem takes_toReturn (hblock : Placed P.instructions q [Instruction.push rax]) (hroom : ret.length < P.room .ret) :
    P.Takes q ⟨.cached, a :: data, ret, output⟩ (q + codeSize Primitive.toReturn.body)
      ⟨.spilled, data, a :: ret, output⟩ := by
  refine takes_run hblock (fun s hs => ?_) fun v hv => ?_
  · cases s with
    | data => exact absurd rfl hs
    | ret => exact hroom
  · obtain ⟨reg, flags, mem, rest, rfl, hdata⟩ := hv.exists_of_cached
    cases hdata
    exact ⟨_, rfl, rfl, rfl, rfl⟩

theorem takes_fromReturn (hblock : Placed P.instructions q [Instruction.pop rax]) :
    P.Takes q ⟨.spilled, data, a :: ret, output⟩ (q + codeSize Primitive.fromReturn.body)
      ⟨.cached, a :: data, ret, output⟩ := by
  refine takes_run hblock (hasRoom_of_pushes_eq_zero rfl rfl) fun v hv => ?_
  obtain ⟨reg, flags, mem, rfl⟩ := hv.exists_of_spilled
  exact ⟨_, rfl, rfl, rfl, rfl⟩

theorem takes_returnFetch (hblock : Placed P.instructions q [Instruction.load rax (.at rsp)]) :
    P.Takes q ⟨.spilled, data, a :: ret, output⟩ (q + codeSize Primitive.returnFetch.body)
      ⟨.cached, a :: data, a :: ret, output⟩ := by
  refine takes_run hblock (hasRoom_of_pushes_eq_zero rfl rfl) fun v hv => ?_
  obtain ⟨reg, flags, mem, rfl⟩ := hv.exists_of_spilled
  exact ⟨_, rfl, rfl, rfl, rfl⟩

end Process

end ForthElf
