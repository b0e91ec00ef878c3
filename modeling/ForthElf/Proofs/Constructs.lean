import ForthElf.Proofs.Compilation
import ForthElf.Proofs.PrintNumber

/-!
# The code of words and constructs

What the blocks of the compiler do to a process at their place, once their branches are led to their targets.

* `Process.takes_word`, `Process.takes_primitive` — **built-in words**: from the stacks before the word to those after
  it;
* `Process.takes_branchIfZero`, `Process.takes_jumping` — conditionals and loops with a test;
* `Process.takes_enterLoop`, `Process.takes_loop`, `Process.takes_stepping`, `Process.takes_plusLoop`,
  `Process.takes_loopIndex` — counted loops;
* `Process.takes_calling`, `Process.takes_returning` — definitions;
* `Process.ends_spilling` — the end.
-/

namespace ForthElf

open Register Compiler

def LoopFrame.cells (l : LoopFrame) : List Cell :=
  [l.index, l.limit]

namespace Process

variable {P : Process} {p target : Nat} {place : CacheState} {a : Cell} {data ret : List Cell} {output : List UInt8}

/-! ### Branches that are led to their targets -/

theorem displacement_eq {kind : Branch} (hi : Placed P.instructions p [leading p kind target])
    (htarget : target < 2 ^ 31) :
    (p + kind.size : Int) + (distance (p + kind.opcode.length) target).toInt = target := by
  have hle := hi.add_codeSize_le
  have hsize := P.consists.size
  rw [codeSize_cons, codeSize_nil, size_leading] at hle
  rw [toInt_distance (by omega) htarget, Branch.size]
  omega

theorem codeSize_branching (p : Nat) (front : List Instruction) (kind : Branch) (target : Nat) :
    codeSize (branching p front kind target) = codeSize front + kind.size := by
  rw [branching, codeSize_append, codeSize_cons, codeSize_nil, size_leading, Branch.size]

theorem keeps_runLeading {block : List Instruction} {condition : Condition} {C : Prop} [Decidable C] {Q R : View → Prop}
    (hblock : Placed P.instructions p (block ++ [leading (p + codeSize block) (.jumpIf condition) target]))
    (htarget : target < 2 ^ 31) (hfits : P.Fits Q block)
    (hv : ∀ v, Q v → ∃ v', v.run P.kernel block = some v' ∧ condition.holds v'.flags = decide C ∧ R v') :
    P.Keeps p Q (if C then target else p + codeSize block + (Branch.jumpIf condition).size) R := by
  refine keeps_runJumpIf hblock ?_ hfits hv
  have hd := displacement_eq hblock.right htarget
  rwa [Int.natCast_add] at hd

theorem takes_jumping (hblock : Placed P.instructions p (branching p place.spilling .jump target))
    (htarget : target < 2 ^ 31) (hroom : data.length ≤ P.room .data) :
    P.Takes p ⟨place, data, ret, output⟩ target ⟨.spilled, data, ret, output⟩ :=
  (takes_spilling hblock.left hroom).trans (keeps_jump hblock.right (displacement_eq hblock.right htarget))

theorem takes_calling (hblock : Placed P.instructions p (branching p place.spilling .call target))
    (htarget : target < 2 ^ 31) (hroom : data.length ≤ P.room .data) (hret : ret.length < P.room .ret) :
    P.Takes p ⟨place, data, ret, output⟩ target
      ⟨.spilled, data, P.code.address (p + codeSize (branching p place.spilling .call target)) :: ret, output⟩ := by
  rw [codeSize_branching, ← Nat.add_assoc]
  exact (takes_spilling hblock.left hroom).trans (takes_call hblock.right (displacement_eq hblock.right htarget) hret)

theorem takes_branchIfZero (hblock : Placed P.instructions p (branching p (testing place) (.jumpIf .equal) target))
    (htarget : target < 2 ^ 31) :
    P.Takes p ⟨place, a :: data, ret, output⟩
      (if a = 0 then target else p + codeSize (branching p (testing place) (.jumpIf .equal) target))
      ⟨.spilled, data, ret, output⟩ := by
  have hsplit : branching p (testing place) (.jumpIf .equal) target = place.filling ++
      ([Instruction.test rax rax] ++ [leading (p + codeSize (testing place)) (.jumpIf .equal) target]) := by
    rw [branching, testing, List.append_assoc]
  have hsize : p + codeSize (testing place) = p + codeSize place.filling + codeSize [.test rax rax] := by
    rw [testing, codeSize_append, Nat.add_assoc]
  rw [codeSize_branching, ← Nat.add_assoc]
  rw [hsplit, hsize] at hblock
  rw [hsize]
  refine (takes_filling hblock.left).trans ?_
  refine keeps_runLeading hblock.right htarget (HasRoom.fits (hasRoom_of_pushes_eq_zero rfl rfl)) fun v hv => ?_
  obtain ⟨reg, flags, mem, rest, rfl, hdata⟩ := hv.exists_of_cached
  cases hdata
  exact ⟨_, rfl, Condition.holds_equal_test _, rfl, rfl, rfl⟩

/-! ### Built-in words -/

theorem takes_print {r : Nat} (hroutine : Placed P.instructions r printNumber)
    (hblock : Placed P.instructions p (branching p place.spilling .call r)) (hdata : (a :: data).length ≤ P.room .data)
    (hret : ret.length + 5 ≤ P.room .ret) :
    P.Takes p ⟨place, a :: data, ret, output⟩ (p + codeSize (branching p place.spilling .call r))
      ⟨.spilled, data, ret, output ++ a.printed⟩ := by
  have hr : r < 2 ^ 31 := by
    have hle := hroutine.add_codeSize_le
    have hsize := P.consists.size
    omega
  exact (takes_calling hblock hr hdata (by omega)).trans (takes_printNumber hroutine hret)

theorem takes_settled {wanted : CacheState} {body : List Instruction} {st : Status}
    (hblock : Placed P.instructions p (place.settling wanted ++ body))
    (hroom : wanted = .spilled → data.length ≤ P.room .data) (hne : wanted = .cached → data ≠ [])
    (hbody : P.Takes (p + codeSize (place.settling wanted)) ⟨wanted, data, ret, output⟩
      (p + codeSize (place.settling wanted) + codeSize body) st) :
    P.Takes p ⟨place, data, ret, output⟩ (p + codeSize (place.settling wanted ++ body)) st := by
  rw [add_codeSize_append]
  exact (takes_settling hblock.left hroom hne).trans hbody

/-- **A built-in word at its place**, apart from those that look at memory beside the stacks. -/
theorem takes_word {word : Primitive} {w w' : World} {r : Nat} (hmemory : word.usesMemory = false)
    (hroutine : word = .dot → Placed P.instructions r printNumber)
    (hblock : Placed P.instructions p (word.recipe.code r p place)) (he : word.effect w = .goesOn w')
    (hdata : w.data.length + word.reserve ≤ P.room .data + 1)
    (hret : w.ret.length + word.returnReserve ≤ P.room .ret) :
    P.Takes p ⟨place, w.data, w.ret, w.output⟩ (p + codeSize (word.recipe.code r p place))
      ⟨word.recipe.exitState, w'.data, w'.ret, w'.output⟩ := by
  by_cases hcomputes : word.computes
  · have hexit : word.recipe.exitState = .cached := by rw [Primitive.recipe_of_computes hcomputes, Recipe.exitState]
    rw [hexit, Primitive.ret_of_computes hcomputes he]
    exact takes_computing hcomputes hblock he hdata
  obtain ⟨cells, ret, mem, output⟩ := w
  -- The other words that fill a free cell find it at least when the whole stack is in memory.
  have hroom : word.reserve ≠ 0 → cells.length ≤ P.room .data := by
    intro hreserve
    dsimp only at hdata
    omega
  cases word
  case drop =>
    rcases cells with _ | ⟨a, rest⟩ <;> cases he
    exact takes_discard hblock
  case questionDup =>
    rcases cells with _ | ⟨a, rest⟩ <;> cases he
    exact takes_settled hblock nofun (fun _ => List.cons_ne_nil a rest)
      (takes_questionDup hblock.right (hroom (by decide)))
  case emit =>
    rcases cells with _ | ⟨a, rest⟩ <;> cases he
    exact takes_settled hblock (fun _ => hroom (by decide)) nofun (takes_emit hblock.right)
  case newline =>
    cases he
    exact takes_settled hblock (fun _ => hroom (by decide)) nofun
      (takes_newline hblock.right (Nat.le_of_succ_le_succ hdata))
  case dot =>
    rcases cells with _ | ⟨a, rest⟩ <;> cases he
    exact takes_print (hroutine rfl) hblock (hroom (by decide)) hret
  case toReturn =>
    rcases cells with _ | ⟨a, rest⟩ <;> cases he
    exact takes_settled hblock nofun (fun _ => List.cons_ne_nil a rest) (takes_toReturn hblock.right hret)
  case fromReturn =>
    rcases ret with _ | ⟨a, ret⟩ <;> cases he
    exact takes_settled hblock (fun _ => hroom (by decide)) nofun (takes_fromReturn hblock.right)
  case returnFetch =>
    rcases ret with _ | ⟨a, ret⟩ <;> cases he
    exact takes_settled hblock (fun _ => hroom (by decide)) nofun (takes_returnFetch hblock.right)
  case bye => cases he
  case fetch | store | fetchByte | storeByte | plusStore => cases hmemory
  all_goals exact absurd rfl hcomputes

/-- A built-in word in a program that keeps its return stack to itself. -/
theorem takes_primitive {word : Primitive} {w w' : World} (hmemory : word.usesMemory = false)
    (hreturn : word.usesReturnStack = false) (hroutine : Placed P.instructions 0 printNumber)
    (hblock : Placed P.instructions p (word.recipe.code 0 p place)) (he : word.effect w = .goesOn w')
    (hdata : w.data.length < P.room .data) (hdata' : w'.data.length ≤ P.room .data)
    (hret : ret.length + 5 ≤ P.room .ret) :
    P.Takes p ⟨place, w.data, ret, w.output⟩ (p + codeSize (word.recipe.code 0 p place))
      ⟨word.recipe.exitState, w'.data, ret, w'.output⟩ := by
  have hreturnReserve := Nat.add_le_add_left word.returnReserve_le ret.length
  exact takes_word (w := { w with ret := ret }) hmemory (fun _ => hroutine) hblock (word.effect_of_ret hreturn he ret)
    (word.length_add_reserve_le he hdata hdata') (Nat.le_trans hreturnReserve hret)

/-! ### Literals and loop indices -/

theorem takes_literal {value : Cell}
    (hblock : Placed P.instructions p (place.spilling ++ [Instruction.movRegImm rax value]))
    (hroom : data.length ≤ P.room .data) :
    P.Takes p ⟨place, data, ret, output⟩ (p + codeSize (place.spilling ++ [Instruction.movRegImm rax value]))
      ⟨.cached, value :: data, ret, output⟩ := by
  rw [add_codeSize_append]
  refine (takes_spilling hblock.left hroom).trans ?_
  refine takes_run hblock.right (hasRoom_of_pushes_eq_zero rfl rfl) fun v hv => ?_
  obtain ⟨reg, flags, mem, rfl⟩ := hv.exists_of_spilled
  exact ⟨_, rfl, rfl, rfl, rfl⟩

theorem takes_loopIndex {disp : BitVec 32} {i : Nat}
    (hblock : Placed P.instructions p (place.spilling ++ [Instruction.load rax ⟨rsp, disp⟩]))
    (hroom : data.length ≤ P.room .data) (hdisp : cellIndex? disp = some i) (hi : ret[i]? = some a) :
    P.Takes p ⟨place, data, ret, output⟩ (p + codeSize (place.spilling ++ [Instruction.load rax ⟨rsp, disp⟩]))
      ⟨.cached, a :: data, ret, output⟩ := by
  rw [add_codeSize_append]
  refine (takes_spilling hblock.left hroom).trans ?_
  refine takes_run hblock.right (hasRoom_of_pushes_eq_zero rfl rfl) fun v hv => ?_
  have hcell : v.cellAt? ⟨rsp, disp⟩ = some a := by
    show (cellIndex? disp).bind (fun i => (v.cells .ret)[i]?.join) = some a
    rw [hdisp, Option.bind_some, hv.ret, List.getElem?_map, hi]
    rfl
  refine ⟨v.setReg rax a, ?_, ?_, hv.ret, hv.output⟩
  · rw [View.run, View.execute, hcell]
    rfl
  · show some a :: v.cells .data = _
    rw [show v.cells .data = data.map some from hv.data]
    rfl

/-! ### Counted loops -/

theorem takes_enterLoop {index limit : Cell} (hblock : Placed P.instructions p (place.filling ++ enterLoop))
    (hret : ret.length + 2 ≤ P.room .ret) :
    P.Takes p ⟨place, index :: limit :: data, ret, output⟩ (p + codeSize (place.filling ++ enterLoop))
      ⟨.spilled, data, index :: limit :: ret, output⟩ := by
  rw [add_codeSize_append]
  refine (takes_filling hblock.left).trans (takes_run hblock.right (fun s hs => ?_) fun v hv => ?_)
  · cases s with
    | data => exact absurd rfl hs
    | ret => exact hret
  · obtain ⟨reg, flags, mem, rest, rfl, hdata⟩ := hv.exists_of_cached
    cases hdata
    exact ⟨_, rfl, rfl, rfl, rfl⟩

theorem takes_dropLoop {l : LoopFrame} (hi : Placed P.instructions p [dropLoop]) :
    P.Takes p ⟨.spilled, data, l.cells ++ ret, output⟩ (p + codeSize [dropLoop]) ⟨.spilled, data, ret, output⟩ := by
  refine takes_run hi (hasRoom_of_pushes_eq_zero rfl rfl) fun v hv => ?_
  obtain ⟨reg, flags, mem, rfl⟩ := hv.exists_of_spilled
  exact ⟨_, rfl, rfl, rfl, rfl⟩

/-- **The end of a counted loop.** -/
theorem takes_loop {l : LoopFrame}
    (hblock : Placed P.instructions p
      (branching p (place.spilling ++ stepByOne) (.jumpIf .less) target ++ [dropLoop]))
    (htarget : target < 2 ^ 31) (hroom : data.length ≤ P.room .data) :
    P.Takes p ⟨place, data, l.cells ++ ret, output⟩
      (if l.step?.isSome then target
        else p + codeSize (branching p (place.spilling ++ stepByOne) (.jumpIf .less) target ++ [dropLoop]))
      ⟨.spilled, data, l.step?.toList.flatMap LoopFrame.cells ++ ret, output⟩ := by
  have hdrop := hblock.right
  have hsize : p + codeSize (branching p (place.spilling ++ stepByOne) (.jumpIf .less) target) =
      p + codeSize place.spilling + codeSize stepByOne + (Branch.jumpIf .less).size := by
    rw [codeSize_branching, codeSize_append]
    omega
  have hsplit : branching p (place.spilling ++ stepByOne) (.jumpIf .less) target = place.spilling ++
      (stepByOne ++ [leading (p + codeSize place.spilling + codeSize stepByOne) (.jumpIf .less) target]) := by
    rw [branching, add_codeSize_append, List.append_assoc]
  have htest := hblock.left
  rw [hsplit] at htest
  have hstep : P.Takes p ⟨place, data, l.cells ++ ret, output⟩
      (if (l.index + 1).slt l.limit then target
        else p + codeSize place.spilling + codeSize stepByOne + (Branch.jumpIf .less).size)
      ⟨.spilled, data, LoopFrame.cells ⟨l.index + 1, l.limit⟩ ++ ret, output⟩ := by
    refine (takes_spilling htest.left hroom).trans ?_
    refine keeps_runLeading htest.right htarget (HasRoom.fits (hasRoom_of_pushes_eq_zero rfl rfl)) fun v hv => ?_
    obtain ⟨reg, flags, mem, rfl⟩ := hv.exists_of_spilled
    refine ⟨_, rfl, ?_, rfl, rfl, rfl⟩
    rw [Bool.decide_eq_true]
    exact Condition.holds_less_compare (l.index + 1) l.limit
  refine hstep.trans ?_
  unfold LoopFrame.step?
  by_cases hagain : (l.index + 1).slt l.limit = true
  · simp only [if_pos hagain]
    exact .refl
  · simp only [if_neg hagain]
    rw [add_codeSize_append, ← hsize]
    exact takes_dropLoop hdrop

/-- The step is added to the index, and the distance from the limit is in `rcx`. -/
def Stepped (l : LoopFrame) (step : Cell) (data ret : List Cell) (output : List UInt8) (v : View) : Prop :=
  Status.Matches ⟨.spilled, data, LoopFrame.cells ⟨l.index + step, l.limit⟩ ++ ret, output⟩ v ∧
    v.reg rcx = l.index - l.limit + BitVec.intMin 64 + step ∧ v.reg rdx = BitVec.intMin 64

/-- The index meets the limit if the distance is that of the limit. -/
theorem add_eq_iff_sub_add_eq (index limit bias step : BitVec 64) :
    index - limit + bias + step = bias ↔ index + step = limit := by
  constructor
  · intro h
    have hsum : index + step - limit = 0#64 := by
      have hbias : index + step - limit + bias = 0#64 + bias := by
        rw [BitVec.zero_add]
        exact Eq.trans (by simp only [BitVec.sub_eq_add_neg]; ac_rfl) h
      exact (BitVec.add_left_inj bias).mp hbias
    rw [← BitVec.sub_add_cancel (index + step) limit, hsum, BitVec.zero_add]
  · rintro rfl
    have hsum : index - (index + step) + bias + step = index + step - (index + step) + bias := by
      simp only [BitVec.sub_eq_add_neg]
      ac_rfl
    rw [hsum, BitVec.sub_self, BitVec.zero_add]

/-- The jump that is taken if the index crosses the limit. -/
theorem keeps_crossing {l : LoopFrame} {step : Cell}
    (hblock : Placed P.instructions p (stepByTop ++ [leading (p + codeSize stepByTop) (.jumpIf .overflow) target]))
    (htarget : target < 2 ^ 31) :
    P.Keeps p (Status.Matches ⟨.cached, step :: data, l.cells ++ ret, output⟩)
      (if l.Crosses step then target else p + codeSize stepByTop + 6) (Stepped l step data ret output) := by
  refine keeps_runLeading hblock htarget (HasRoom.fits (hasRoom_of_pushes_eq_zero rfl rfl)) fun v hv => ?_
  obtain ⟨reg, flags, mem, rest, rfl, hdata⟩ := hv.exists_of_cached
  cases hdata
  obtain ⟨v', hrun, hflags, hv'⟩ : ∃ v', (View.mk reg flags (Stack.pair (data.map some)
        ((l.cells ++ ret).map some)) mem output).run P.kernel stepByTop = some v' ∧
      v'.flags = .ofResult (l.index - l.limit + BitVec.intMin 64 + reg rax)
        ((l.index - l.limit + BitVec.intMin 64).saddOverflow (reg rax)) ∧
      Stepped l (reg rax) data ret output v' :=
    ⟨_, rfl, rfl, ⟨rfl, rfl, rfl⟩, rfl, rfl⟩
  refine ⟨v', hrun, ?_, hv'⟩
  rw [hflags, Condition.holds_overflow_ofResult, Bool.eq_iff_iff, decide_eq_true_iff, saddOverflow_biased]
  rfl

/-- The jump back that is taken unless the index meets the limit. -/
theorem keeps_meeting {l : LoopFrame} {step : Cell}
    (hblock : Placed P.instructions p
      (compareLimit ++ [leading (p + codeSize compareLimit) (.jumpIf .notEqual) target])) (htarget : target < 2 ^ 31) :
    P.Keeps p (Stepped l step data ret output)
      (if l.index + step = l.limit then p + codeSize compareLimit + 6 else target)
      (Status.Matches ⟨.spilled, data, LoopFrame.cells ⟨l.index + step, l.limit⟩ ++ ret, output⟩) := by
  rw [← ite_not]
  refine keeps_runLeading hblock htarget (fun v _ s hs => by cases s <;> exact absurd rfl hs) fun v hv => ?_
  obtain ⟨hv, hrcx, hrdx⟩ := hv
  refine ⟨_, rfl, ?_, hv.data, hv.ret, hv.output⟩
  refine (Condition.holds_notEqual_compare (v.reg rcx) (v.reg rdx)).trans ?_
  rw [Bool.eq_iff_iff, bne_iff_ne, decide_eq_true_iff, hrcx, hrdx]
  exact not_congr (add_eq_iff_sub_add_eq ..)

/-- The parts of the code behind a loop with a step, each at its place. -/
theorem placed_plusLoopEnd (hblock : Placed P.instructions p (plusLoopEnd p target)) :
    ∃ e, p + codeSize (plusLoopEnd p target) = e + codeSize [dropLoop] ∧
      e = p + codeSize stepByTop + 6 + codeSize compareLimit + 6 ∧ e < 2 ^ 31 ∧
      Placed P.instructions p (stepByTop ++ [leading (p + codeSize stepByTop) (.jumpIf .overflow) e]) ∧
      Placed P.instructions (p + codeSize stepByTop + 6) (compareLimit ++
        [leading (p + codeSize stepByTop + 6 + codeSize compareLimit) (.jumpIf .notEqual) target]) ∧
      Placed P.instructions e [dropLoop] := by
  have hsplit : plusLoopEnd p target = (stepByTop ++ [leading (p + codeSize stepByTop) (.jumpIf .overflow)
      (p + codeSize stepByTop + 6 + codeSize compareLimit + 6)]) ++ ((compareLimit ++
        [leading (p + codeSize stepByTop + 6 + codeSize compareLimit) (.jumpIf .notEqual) target]) ++ [dropLoop]) := by
    simp [plusLoopEnd]
  have hlt := Nat.lt_of_le_of_lt hblock.add_codeSize_le P.consists.size
  rw [hsplit] at hblock hlt ⊢
  have hmeet := hblock.right.left
  have hdrop := hblock.right.right
  simp only [codeSize_append, codeSize_cons, codeSize_nil, size_leading, length_opcode_jumpIf,
    ← Nat.add_assoc] at hmeet hdrop hlt ⊢
  exact ⟨_, rfl, rfl, by omega, hblock.left, hmeet, hdrop⟩

/-- The end of a counted loop with a step, up to the instruction that drops the cells of the loop. -/
theorem takes_stepping {l : LoopFrame} {step : Cell}
    (hblock : Placed P.instructions p (place.filling ++ plusLoopEnd (p + codeSize place.filling) target))
    (htarget : target < 2 ^ 31) :
    ∃ e, p + codeSize (place.filling ++ plusLoopEnd (p + codeSize place.filling) target) = e + codeSize [dropLoop] ∧
      Placed P.instructions e [dropLoop] ∧
      P.Takes p ⟨place, step :: data, l.cells ++ ret, output⟩
        (if l.Crosses step ∨ l.index + step = l.limit then e else target)
        ⟨.spilled, data, LoopFrame.cells ⟨l.index + step, l.limit⟩ ++ ret, output⟩ := by
  obtain ⟨e, hend, he, hlt, hcross, hmeet, hdrop⟩ := placed_plusLoopEnd hblock.right
  refine ⟨e, by rw [add_codeSize_append, hend], hdrop, (takes_filling hblock.left).trans ?_⟩
  have hcrossing : P.Keeps _ (Status.Matches ⟨.cached, step :: data, l.cells ++ ret, output⟩) _
      (Stepped l step data ret output) := keeps_crossing hcross hlt
  by_cases hcrosses : l.Crosses step
  · rw [if_pos hcrosses] at hcrossing
    rw [if_pos (Or.inl hcrosses)]
    exact hcrossing.weaken fun v hv => hv.1
  · rw [if_neg hcrosses] at hcrossing
    have hboth := hcrossing.trans (keeps_meeting hmeet htarget)
    rw [← he] at hboth
    simpa only [hcrosses, false_or] using hboth

/-- **The end of a counted loop with a step.** -/
theorem takes_plusLoop {l : LoopFrame} {step : Cell}
    (hblock : Placed P.instructions p (place.filling ++ plusLoopEnd (p + codeSize place.filling) target))
    (htarget : target < 2 ^ 31) :
    P.Takes p ⟨place, step :: data, l.cells ++ ret, output⟩
      (if (l.stepBy? step).isSome then target
        else p + codeSize (place.filling ++ plusLoopEnd (p + codeSize place.filling) target))
      ⟨.spilled, data, (l.stepBy? step).toList.flatMap LoopFrame.cells ++ ret, output⟩ := by
  obtain ⟨e, hend, hdrop, hstepping⟩ := takes_stepping hblock htarget
  rw [hend]
  refine hstepping.trans ?_
  unfold LoopFrame.stepBy?
  by_cases hleaves : l.Crosses step ∨ l.index + step = l.limit
  · simp only [if_pos hleaves]
    exact takes_dropLoop hdrop
  · simp only [if_neg hleaves]
    exact .refl

/-! ### Returning -/

theorem cellIndex?_ofNat {n : Nat} (h : 8 * n < 2 ^ 31) : cellIndex? (BitVec.ofNat 32 (8 * n)) = some n := by
  have hnat : (BitVec.ofNat 32 (8 * n)).toNat = 8 * n := by
    rw [BitVec.toNat_ofNat, Nat.mod_eq_of_lt (by omega)]
  have hmsb : (BitVec.ofNat 32 (8 * n)).msb = false := by
    rw [BitVec.msb_eq_false_iff_two_mul_lt, hnat]
    omega
  rw [cellIndex?, hnat, if_pos ⟨hmsb, by omega⟩, Nat.mul_div_cancel_left n (by decide)]

theorem takes_dropReturnCells {cells : List Cell} (hblock : Placed P.instructions p (dropReturnCells cells.length))
    (hlt : 8 * cells.length < 2 ^ 31) :
    P.Takes p ⟨.spilled, data, cells ++ ret, output⟩ (p + codeSize (dropReturnCells cells.length))
      ⟨.spilled, data, ret, output⟩ := by
  cases cells with
  | nil => exact .refl
  | cons a cells =>
    refine takes_run hblock (hasRoom_of_pushes_eq_zero rfl rfl) fun v hv => ?_
    have hindex := cellIndex?_ofNat hlt
    have hmoved : View.moved (v.cells .ret) (a :: cells).length .add = some (ret.map some) := by
      have hle : (a :: cells).length ≤ (((a :: cells) ++ ret).map some).length := by simp
      rw [hv.ret, View.moved, if_pos hle, List.map_append, List.drop_left' (List.length_map _)]
    obtain ⟨w, hw, hcells, houtput⟩ : ∃ w,
        v.compute P.kernel (.aluRegImm .add rsp (BitVec.ofNat 32 (8 * (a :: cells).length))) = some w ∧
          w.cells = v.cells ∧ w.output = v.output :=
      ⟨_, rfl, rfl, rfl⟩
    refine ⟨w.setCells .ret (ret.map some), ?_, ?_, rfl, houtput.trans hv.output⟩
    · have hdrop : dropReturnCells (a :: cells).length =
          [.aluRegImm .add rsp (BitVec.ofNat 32 (8 * (a :: cells).length))] := if_pos (Nat.succ_pos _)
      have hpointer : Stack.ofPointer? rsp = some .ret := rfl
      rw [hdrop, View.run, View.execute, hpointer]
      dsimp only
      rw [hw, Option.bind_some, hindex, Option.bind_some, hmoved]
      rfl
    · show w.cells .data = _
      rw [hcells]
      exact hv.data

/-- Returning from a definition, whatever its loops have on the return stack. -/
theorem takes_returning {cells : List Cell}
    (hblock : Placed P.instructions p (place.spilling ++ dropReturnCells cells.length ++ [Instruction.ret]))
    (hroom : data.length ≤ P.room .data) (hlt : 8 * cells.length < 2 ^ 31) :
    P.Takes p ⟨place, data, cells ++ P.code.address target :: ret, output⟩ target ⟨.spilled, data, ret, output⟩ := by
  refine (takes_spilling hblock.left.left hroom).trans ((takes_dropReturnCells hblock.left.right hlt).trans ?_)
  have hret := hblock.right
  rw [add_codeSize_append] at hret
  exact takes_ret hret

/-! ### Processes that end -/

/-- From offset `p` with a view in `Q` the process ends with status zero and the given output. -/
def Ends (P : Process) (p : Nat) (Q : View → Prop) (output : List UInt8) : Prop :=
  ∀ m v, Stands P.code P.areas v p m → Q v →
    ∃ n m', m.run P.kernel P.code n = .exited 0 m' ∧ m'.output = output

theorem Keeps.ends {p' : Nat} {Q R : View → Prop} (h : P.Keeps p Q p' R) (hends : P.Ends p' R output) :
    P.Ends p Q output := by
  intro m v hm hv
  obtain ⟨m₁, v₁, ⟨n, hn⟩, hm₁, hv₁, -⟩ := h v.mem m v hm ⟨hv, rfl⟩
  obtain ⟨n', m', hrun, houtput⟩ := hends m₁ v₁ hm₁ hv₁
  exact ⟨n + n', m', (Machine.run_add hn n').trans hrun, houtput⟩

/-- The end of a process, wherever the top cell is. -/
theorem ends_spilling (hblock : Placed P.instructions p (place.spilling ++ exitBlock 0))
    (hroom : data.length ≤ P.room .data) : P.Ends p (Status.Matches ⟨place, data, ret, output⟩) output := by
  refine (takes_spilling hblock.left hroom).ends fun m v hm hv => ?_
  obtain ⟨n, m', hrun, houtput⟩ := hm.exits P.consists hblock.right
  exact ⟨n, m', hrun, houtput.trans hv.output⟩

end Process

end ForthElf
