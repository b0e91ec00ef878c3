import ForthElf.Machine.Step
import ForthElf.Proofs.Positions

/-!
# What moves the stack pointer

The return stack is the stack of the processor, and `rsp` points to its uppermost cell.

* `Instruction.rise`, `climb block` — by how many bytes an instruction and a block move `rsp` up, which for the
  instructions that the compiler emits is what `Machine.execute` does by `Machine.rsp_of_quiet` and
  `Machine.rsp_of_shifts`;
* `Quiet block` — the block does not use the return stack;
* `Item.moving` — the end of the instructions of an item that moves `rsp` or returns, and
  `Compiler.exists_itemCode_eq` — **all in front of it is quiet**;
* `cases_of_moving_eq` — what such an end can be.
-/

namespace ForthElf

open Register

/-! ### Instructions -/

namespace Instruction

/-- By how many bytes an instruction moves `rsp` up.  A call is taken as leaving it where it is. -/
def rise : Instruction → Int
  | .push _ => -8
  | .pop _ => 8
  | .aluRegImm .add .rsp value => value.toInt
  | _ => 0

/-- Whether an instruction does not use the return stack.  A call is taken as such. -/
def quiet : Instruction → Bool
  | .movRegReg dst _ | .movRegImm dst _ | .movReg32Imm dst _ | .load dst _ | .loadByte dst _ | .zeroExtendByte dst _
  | .lea dst _ | .aluRegReg _ dst _ | .aluRegImm _ dst _ | .aluRegMem _ dst _ | .decReg dst | .imul dst _
  | .unary _ dst | .shift _ dst | .setIf _ dst | .moveIf _ dst _ => dst != rsp
  | .push _ | .pop _ | .ret => false
  | _ => true

theorem rise_of_quiet {i : Instruction} (h : i.quiet) : i.rise = 0 := by
  unfold rise
  split
  · cases h
  · cases h
  · exact absurd rfl (bne_iff_ne.mp h)
  · rfl

/-- Whether an instruction moves `rsp` by its `rise`. -/
def shifts : Instruction → Bool
  | .push _ | .aluRegImm .add .rsp _ => true
  | .pop dst => dst != rsp
  | _ => false

theorem quiet_branch (kind : Branch) (d : BitVec 32) : (Instruction.branch kind d).quiet := rfl

end Instruction

namespace Machine

variable {kernel : Kernel} {m m' : Machine} {i : Instruction}

theorem rsp_setReg (m : Machine) {r : Register} (value : BitVec 64) (h : (r != rsp) = true) :
    (m.setReg r value).reg rsp = m.reg rsp :=
  reg_setReg_of_ne m value (bne_iff_ne.mp h).symm

theorem rsp_alu {op : AluOp} {a b : BitVec 64} {keep : Machine → BitVec 64 → Machine}
    (hkeep : ∀ m result, (keep m result).reg rsp = m.reg rsp) : (m.alu op a b keep).reg rsp = m.reg rsp := by
  unfold alu
  dsimp only
  split
  · rfl
  · exact hkeep _ _

theorem rsp_unary {op : UnaryOp} {r : Register} (hr : (r != rsp) = true) (h : m.unary r op = .running m') :
    m'.reg rsp = m.reg rsp := by
  cases op with
  | not | neg =>
    cases h
    exact rsp_setReg _ _ hr
  | div | idiv =>
    simp only [unary, divide, divideSigned] at h
    split at h
    · cases h
    · cases h
      exact (rsp_setReg _ _ rfl).trans (rsp_setReg _ _ rfl)

theorem rsp_systemCall (h : m.systemCall kernel = .running m') : m'.reg rsp = m.reg rsp := by
  unfold systemCall at h
  split at h
  · cases h
    exact ((rsp_setReg _ _ rfl).trans (rsp_setReg _ _ rfl)).trans (rsp_setReg _ _ rfl)
  · split at h <;> cases h

/-- **A quiet instruction** leaves `rsp` alone. -/
theorem rsp_of_quiet (hquiet : i.quiet) (hcall : ∀ d, i ≠ .branch .call d) (h : m.execute kernel i = .running m') :
    m'.reg rsp = m.reg rsp := by
  cases i with
  | push | pop | ret => cases hquiet
  | movRegReg | movRegImm | movReg32Imm | load | loadByte | zeroExtendByte | lea | imul =>
    cases h
    exact rsp_setReg _ _ hquiet
  | aluRegReg | aluRegImm | aluRegMem | decReg =>
    cases h
    exact rsp_alu fun m result => rsp_setReg m result hquiet
  | aluMemReg | incMem =>
    cases h
    exact rsp_alu fun m result => rfl
  | store | storeImm | storeByte | test =>
    cases h
    rfl
  | cqo =>
    cases h
    exact rsp_setReg _ _ rfl
  | unary op dst => exact rsp_unary hquiet h
  | shift op dst =>
    cases h
    unfold shift
    dsimp only
    split
    · rfl
    · exact rsp_setReg _ _ hquiet
  | setIf condition dst =>
    cases h
    exact rsp_setReg _ _ hquiet
  | moveIf condition dst src =>
    cases h
    split
    · exact rsp_setReg _ _ hquiet
    · rfl
  | branch kind d =>
    cases h
    cases kind with
    | jump => rfl
    | jumpIf condition =>
      unfold branch
      dsimp only
      split <;> rfl
    | call => exact absurd rfl (hcall d)
  | syscall => exact rsp_systemCall h

theorem rsp_of_shifts (hshifts : i.shifts) (h : m.execute kernel i = .running m') :
    m'.reg rsp = m.reg rsp + BitVec.ofInt 64 i.rise := by
  unfold Instruction.shifts at hshifts
  split at hshifts
  · cases h
    exact (reg_setReg_self m rsp _).trans (BitVec.sub_eq_add_neg _ _)
  · cases h
    exact reg_setReg_self _ rsp _
  · cases h
    exact (rsp_setReg _ _ hshifts).trans (reg_setReg_self m rsp _)
  · cases hshifts

end Machine

def climb (block : List Instruction) : Int :=
  (block.map Instruction.rise).sum

@[simp] theorem climb_nil : climb [] = 0 := rfl

@[simp] theorem climb_cons (i : Instruction) (block : List Instruction) :
    climb (i :: block) = i.rise + climb block := by
  simp [climb]

@[simp] theorem climb_append (a b : List Instruction) : climb (a ++ b) = climb a + climb b := by
  simp [climb]

def Quiet (block : List Instruction) : Prop :=
  ∀ i ∈ block, i.quiet

instance (block : List Instruction) : Decidable (Quiet block) :=
  inferInstanceAs (Decidable (∀ i ∈ block, i.quiet))

namespace Quiet

variable {a b block : List Instruction}

theorem append (ha : Quiet a) (hb : Quiet b) : Quiet (a ++ b) :=
  List.forall_mem_append.mpr ⟨ha, hb⟩

theorem left (h : Quiet (a ++ b)) : Quiet a :=
  (List.forall_mem_append.mp h).1

theorem concat {i : Instruction} (h : Quiet a) (hi : i.quiet) : Quiet (a ++ [i]) :=
  h.append (List.forall_mem_singleton.mpr hi)

theorem branching (h : Quiet a) (offset : Nat) (kind : Branch) (target : Nat) :
    Quiet (branching offset a kind target) :=
  h.concat (Instruction.quiet_branch _ _)

theorem climb_eq (h : Quiet block) : climb block = 0 := by
  induction block with
  | nil => rfl
  | cons i block ih =>
    obtain ⟨hi, hblock⟩ := List.forall_mem_cons.mp h
    rw [climb_cons, Instruction.rise_of_quiet hi, ih hblock]
    rfl

theorem redirect (h : Quiet block) (choose : Nat → Option Nat) (offset : Nat) :
    Quiet (redirect choose offset block) := by
  induction block generalizing offset with
  | nil => exact h
  | cons i block ih =>
    obtain ⟨hi, hblock⟩ := List.forall_mem_cons.mp h
    refine List.forall_mem_cons.mpr ⟨?_, ih hblock _⟩
    unfold redirectOne
    split
    · split <;> exact Instruction.quiet_branch _ _
    · exact hi

end Quiet

theorem CacheState.quiet_spilling (state : CacheState) : Quiet state.spilling := by
  cases state <;> decide

theorem CacheState.quiet_filling (state : CacheState) : Quiet state.filling := by
  cases state <;> decide

/-! ### The end of an item -/

namespace Item

def spells (p : Primitive) : Item → Bool
  | .word token _ => Primitive.lookup? token.text == some p
  | _ => false

def keyword? : Item → Option Keyword
  | .keyword k _ _ => some k
  | _ => none

end Item

/-- The end of the instructions of a built-in word that moves `rsp`. -/
def Primitive.moving : Primitive → List Instruction
  | .toReturn => [.push rax]
  | .fromReturn => [.pop rax]
  | _ => []

/-- The end of the instructions of an item that moves `rsp` or returns, where an `exit` drops `cells` cells. -/
def Item.moving (cells : Nat) : Item → List Instruction
  | .keyword .«do» _ _ => [.push rcx, .push rax]
  | .keyword .loop _ _ | .keyword .plusLoop _ _ | .keyword .unloop _ _ => [Compiler.dropLoop]
  | .keyword .exit _ _ => Compiler.dropReturnCells cells ++ [.ret]
  | .keyword .semicolon _ _ => [.ret]
  | .word token _ => ((Primitive.lookup? token.text).map Primitive.moving).getD []
  | _ => []

theorem exists_recipe_eq (p : Primitive) (printNumber offset : Nat) (state : CacheState) :
    ∃ front, Quiet front ∧ p.recipe.code printNumber offset state = front ++ p.moving := by
  by_cases hto : p = .toReturn
  · subst hto
    exact ⟨state.filling, state.quiet_filling, rfl⟩
  by_cases hfrom : p = .fromReturn
  · subst hfrom
    exact ⟨state.spilling, state.quiet_spilling, rfl⟩
  refine ⟨p.recipe.code printNumber offset state, ?_, ?_⟩
  · cases p <;> first | exact absurd rfl hto | exact absurd rfl hfrom | skip
    all_goals cases state <;> exact of_decide_eq_true rfl
  · cases p <;> first | exact absurd rfl hto | exact absurd rfl hfrom | exact (List.append_nil _).symm

namespace Compiler

theorem exists_keywordCode_eq (s : Compiler) (keyword : Keyword) (token : Token) (index : Nat) :
    ∃ front, Quiet front ∧
      s.keywordCode keyword = front ++ (Item.keyword keyword token index).moving s.cellsToDrop := by
  have hspill := s.cache.state.quiet_spilling
  have hfill := s.cache.state.quiet_filling
  have htest : Quiet (testing s.cache.state) := hfill.concat rfl
  cases keyword with
  | colon | «variable» | unloop => exact ⟨[], List.forall_mem_nil _, rfl⟩
  | semicolon => exact ⟨_, hspill, rfl⟩
  | «then» | «begin» => exact ⟨_, hspill, (List.append_nil _).symm⟩
  | «if» | «while» => exact ⟨_, htest.concat rfl, (List.append_nil _).symm⟩
  | «else» => exact ⟨_, hspill.concat rfl, (List.append_nil _).symm⟩
  | «until» => exact ⟨_, htest.branching _ _ _, (List.append_nil _).symm⟩
  | again | «repeat» | recurse => exact ⟨_, hspill.branching _ _ _, (List.append_nil _).symm⟩
  | loopIndex | outerLoopIndex => exact ⟨_, hspill.concat rfl, (List.append_nil _).symm⟩
  | «do» =>
    refine ⟨s.cache.state.filling ++ [Instruction.load rcx (.at rbx), dropCell], hfill.append (by decide), ?_⟩
    rw [List.append_assoc]
    rfl
  | loop => exact ⟨_, (hspill.append (by decide)).branching _ _ _, rfl⟩
  | plusLoop =>
    generalize hoffset : s.offset + codeSize s.cache.state.filling = offset
    have hcode : Quiet (plusLoopTest offset) := of_decide_eq_true rfl
    refine ⟨_, hfill.append (hcode.branching offset (.jumpIf .notEqual) s.backTarget), ?_⟩
    rw [keywordCode, hoffset, plusLoopEnd_eq, List.append_assoc]
    rfl
  | exit =>
    refine ⟨_, hspill, ?_⟩
    rw [keywordCode, List.append_assoc]
    rfl

theorem exists_wordCode_eq (s : Compiler) (token : Token) (index : Nat) :
    ∃ front, Quiet front ∧
      s.itemCode (.word token index) = front ++ (Item.word token index).moving s.cellsToDrop := by
  have hspill := s.cache.state.quiet_spilling
  simp only [itemCode, Item.moving]
  cases hp : Primitive.lookup? token.text with
  | some p =>
    rw [resolve, hp]
    exact exists_recipe_eq p _ _ _
  | none =>
    -- A word with another meaning only makes a call or loads an address.
    refine ⟨_, ?_, (List.append_nil _).symm⟩
    cases hr : s.resolve token index with
    | none => exact List.forall_mem_nil _
    | some reference =>
      cases reference with
      | primitive p =>
        rw [Compilation.lookup?_of_resolve hr] at hp
        cases hp
      | defined meaning =>
        cases meaning with
        | code offset => exact hspill.branching _ _ _
        | cell address => exact hspill.concat rfl
      | later => exact hspill.concat rfl
      | nothing => exact List.forall_mem_nil _

/-- **The instructions of an item** do not use the return stack up to their end. -/
theorem exists_itemCode_eq (s : Compiler) (item : Item) :
    ∃ front, Quiet front ∧ s.itemCode item = front ++ item.moving s.cellsToDrop := by
  have hspill := s.cache.state.quiet_spilling
  cases item with
  | define colon name index =>
    refine ⟨_, ?_, (List.append_nil _).symm⟩
    rw [itemCode]
    split
    · exact hspill.concat rfl
    · exact List.forall_mem_nil _
  | «variable» word name index => exact ⟨[], List.forall_mem_nil _, rfl⟩
  | keyword keyword token index => exact s.exists_keywordCode_eq keyword token index
  | number literal token index =>
    refine ⟨_, ?_, (List.append_nil _).symm⟩
    cases literal with
    | cell value => exact hspill.concat rfl
    | outOfRange => exact List.forall_mem_nil _
  | word token index => exact s.exists_wordCode_eq token index

end Compiler

/-- All but an `exit` move `rsp` by the cells that they put on the return stack or take from it. -/
theorem climb_moving {item : Item} (cells : Nat) (hexit : item.keyword? ≠ some .exit) :
    climb (item.moving cells) =
      8 * ((item.spells .fromReturn).toInt - (item.spells .toReturn).toInt) - 16 * item.depth +
        16 * (item.keyword? == some .unloop).toInt := by
  cases item with
  | keyword keyword token index =>
    cases keyword <;> first | exact absurd rfl hexit | rfl
  | word token index =>
    simp only [Item.moving, Item.spells, Item.keyword?, Item.depth]
    cases Primitive.lookup? token.text with
    | none => rfl
    | some p => cases p <;> rfl
  | _ => rfl

theorem exists_moving_eq {item : Item} (h : item.keyword? = some .exit ∨ item.keyword? = some .semicolon)
    (cells : Nat) : ∃ front, item.moving cells = front ++ [Instruction.ret] := by
  cases item with
  | keyword keyword token index =>
    rcases h with h | h <;> cases h
    · exact ⟨_, rfl⟩
    · exact ⟨[], rfl⟩
  | _ => rcases h with h | h <;> cases h

theorem climb_dropReturnCells_eq (cells : Nat) :
    climb (Compiler.dropReturnCells cells) = (BitVec.ofNat 32 (8 * cells)).toInt := by
  unfold Compiler.dropReturnCells
  split
  · exact Int.add_zero _
  · next hpos =>
    obtain rfl : cells = 0 := by omega
    rfl

theorem climb_dropReturnCells_le (cells : Nat) : climb (Compiler.dropReturnCells cells) ≤ 8 * cells := by
  rw [climb_dropReturnCells_eq, BitVec.toInt_eq_toNat_cond, BitVec.toNat_ofNat]
  split <;> omega

/-- An `exit` drops all cells exactly if their size fits into 32 bits with sign. -/
theorem climb_dropReturnCells_eq_iff {cells : Nat} :
    climb (Compiler.dropReturnCells cells) = 8 * cells ↔ cells < 2 ^ 28 := by
  rw [climb_dropReturnCells_eq, BitVec.toInt_eq_toNat_cond, BitVec.toNat_ofNat]
  split <;> omega

/-- What can move `rsp` at the end of an item. -/
theorem moving_cases (item : Item) (cells : Nat) :
    item.moving cells = [] ∨ (∃ i, i.shifts ∧ item.moving cells = [i]) ∨
      item.moving cells = [.push rcx, .push rax] ∨
      item.keyword? = some .exit ∧ item.moving cells = Compiler.dropReturnCells cells ++ [Instruction.ret] ∨
      item.keyword? = some .semicolon ∧ item.moving cells = [.ret] := by
  cases item with
  | keyword keyword token index =>
    cases keyword with
    | «do» => exact .inr (.inr (.inl rfl))
    | loop | plusLoop | unloop => exact .inr (.inl ⟨_, rfl, rfl⟩)
    | exit => exact .inr (.inr (.inr (.inl ⟨rfl, rfl⟩)))
    | semicolon => exact .inr (.inr (.inr (.inr ⟨rfl, rfl⟩)))
    | _ => exact .inl rfl
  | word token index =>
    simp only [Item.moving]
    cases Primitive.lookup? token.text with
    | none => exact .inl rfl
    | some p =>
      cases p with
      | toReturn | fromReturn => exact .inr (.inl ⟨_, rfl, rfl⟩)
      | _ => exact .inl rfl
  | _ => exact .inl rfl

section Moving

variable {item : Item} {cells : Nat} {i : Instruction} {front back : List Instruction}

/-- **What stands in front of an instruction** at the end of an item. -/
theorem cases_of_moving_eq (h : item.moving cells = front ++ i :: back) :
    i.shifts ∧ (front = [] ∨ front = [.push rcx]) ∨
      i = .ret ∧ (item.keyword? = some .exit ∧ front = Compiler.dropReturnCells cells ∨
        item.keyword? = some .semicolon ∧ front = []) := by
  rcases moving_cases item cells with heq | ⟨j, hj, heq⟩ | heq | ⟨hexit, heq⟩ | ⟨hsemi, heq⟩ <;> rw [heq] at h
  · simp at h
  · rcases front with _ | ⟨_, front⟩
    · cases h
      exact .inl ⟨hj, .inl rfl⟩
    · simp at h
  · rcases front with _ | ⟨_, _ | ⟨_, front⟩⟩
    · cases h
      exact .inl ⟨rfl, .inl rfl⟩
    · cases h
      exact .inl ⟨rfl, .inr rfl⟩
    · simp at h
  · unfold Compiler.dropReturnCells at h ⊢
    split at h
    · next hpos =>
      rw [if_pos hpos]
      rcases front with _ | ⟨_, _ | ⟨_, front⟩⟩
      · cases h
        exact .inl ⟨rfl, .inl rfl⟩
      · cases h
        exact .inr ⟨rfl, .inl ⟨hexit, rfl⟩⟩
      · simp at h
    · next hpos =>
      rw [if_neg hpos]
      rcases front with _ | ⟨_, front⟩
      · cases h
        exact .inr ⟨rfl, .inl ⟨hexit, rfl⟩⟩
      · simp at h
  · rcases front with _ | ⟨_, front⟩
    · cases h
      exact .inr ⟨rfl, .inr ⟨hsemi, rfl⟩⟩
    · simp at h

theorem straight_moving (item : Item) (cells : Nat) : Straight (item.moving cells) := by
  intro kind d hmem
  obtain ⟨front, back, h⟩ := List.append_of_mem hmem
  rcases cases_of_moving_eq h with ⟨hshifts, -⟩ | ⟨hret, -⟩
  · cases hshifts
  · cases hret

/-- Up to the last instruction of an item `rsp` does not rise above the cells that are there. -/
theorem climb_le_of_moving_eq (h : item.moving cells = front ++ i :: back) : climb front ≤ 8 * cells := by
  rcases cases_of_moving_eq h with ⟨-, rfl | rfl⟩ | ⟨-, ⟨-, rfl⟩ | ⟨-, rfl⟩⟩
  · rw [climb_nil]
    omega
  · show (-8 : Int) ≤ 8 * cells
    omega
  · exact climb_dropReturnCells_le cells
  · rw [climb_nil]
    omega

end Moving

theorem le_codeSize_moving (item : Item) (cells : Nat) :
    2 * item.depth + (item.spells .toReturn).toInt ≤ codeSize (item.moving cells) := by
  cases item with
  | keyword keyword token index =>
    cases keyword with
    | «do» => exact Int.le_refl 2
    | loop | plusLoop => exact Int.le_trans (by decide : (-2 : Int) ≤ 0) (Int.natCast_nonneg _)
    | _ => exact Int.natCast_nonneg _
  | word token index =>
    simp only [Item.depth, Item.spells, Item.moving]
    cases Primitive.lookup? token.text with
    | none => exact Int.le_refl 0
    | some p => cases p <;> decide
  | _ => exact Int.le_refl 0

end ForthElf
