import ForthElf.Machine.Step
import ForthElf.Word.Effect
import Mathlib.Algebra.Ring.Int.Defs
import Mathlib.Algebra.Ring.Nat

/-!
# Flags and cells

What the conditions and operations of the processor say about cells as signed numbers.

* `Flags.compare`, `Flags.test` — the flags after a comparison and a test, with a lemma for each condition that is
  looked at there;
* `neg_lowByte` — the cell that is made from a condition;
* `Machine.divideSigned_eq` — a division within the range of a cell;
* `saddOverflow_biased` — **the overflow of a biased sum** is the crossing of a boundary.
-/

namespace ForthElf

open Register

/-! ### Conditions -/

def Flags.compare (a b : BitVec 64) : Flags :=
  .ofResult (a - b) (a.ssubOverflow b)

def Flags.test (a : BitVec 64) : Flags :=
  .ofResult (a &&& a) false

namespace Condition

variable (a b : BitVec 64)

theorem holds_overflow_ofResult (result : BitVec 64) (carried : Bool) :
    overflow.holds (.ofResult result carried) = carried := rfl

theorem holds_equal_compare : equal.holds (.compare a b) = (a == b) := by
  show (a - b == 0#64) = (a == b)
  rw [Bool.eq_iff_iff, beq_iff_eq, beq_iff_eq]
  constructor
  · intro h
    rw [← BitVec.sub_add_cancel a b, h, BitVec.zero_add]
  · rintro rfl
    exact BitVec.sub_self a

theorem holds_notEqual_compare : notEqual.holds (.compare a b) = (a != b) :=
  congrArg (!·) (holds_equal_compare a b)

/-- The sign of a difference is wrong exactly if the difference overflows. -/
theorem holds_less_compare : less.holds (.compare a b) = a.slt b := by
  show ((a - b).msb != a.ssubOverflow b) = a.slt b
  have ha := BitVec.toInt_lt (x := a)
  have hb := BitVec.toInt_lt (x := b)
  have ha' := BitVec.le_toInt (x := a)
  have hb' := BitVec.le_toInt (x := b)
  rw [BitVec.msb_eq_toInt, BitVec.toInt_sub, BitVec.ssubOverflow, BitVec.slt, Int.bmod_def, Bool.eq_iff_iff,
    bne_iff_ne, ne_eq, Bool.eq_iff_iff]
  simp only [decide_eq_true_eq, Bool.or_eq_true]
  omega

theorem holds_greater_compare : greater.holds (.compare a b) = b.slt a := by
  have hequal := holds_equal_compare a b
  have hless := holds_less_compare a b
  simp only [holds] at hequal hless ⊢
  have hnot : ((Flags.compare a b).sign == (Flags.compare a b).overflow) = !a.slt b := by
    rw [← hless, bne, Bool.not_not]
  rw [hequal, hnot, Bool.eq_iff_iff]
  simp only [BitVec.slt, Bool.and_eq_true, Bool.not_eq_true', beq_eq_false_iff_ne, decide_eq_false_iff_not,
    decide_eq_true_eq, ne_eq, ← BitVec.toInt_inj]
  omega

theorem holds_equal_test : equal.holds (.test a) = (a == 0) := by
  show (a &&& a == 0) = (a == 0)
  rw [BitVec.and_self]

theorem holds_sign_test : sign.holds (.test a) = a.slt 0 := by
  show (a &&& a).msb = a.slt 0
  rw [BitVec.and_self, BitVec.msb_eq_toInt, BitVec.slt]
  rfl

theorem holds_notSign_test : notSign.holds (.test a) = !a.slt 0 :=
  congrArg (!·) (holds_sign_test a)

theorem holds_greater_test : greater.holds (.test a) = BitVec.slt 0 a := by
  have hequal := holds_equal_test a
  have hsign := holds_sign_test a
  simp only [holds] at hequal hsign ⊢
  rw [hequal, hsign, Bool.eq_iff_iff]
  show (_ && (_ == false)) = true ↔ _
  simp only [BitVec.slt, Bool.and_eq_true, Bool.not_eq_true', beq_eq_false_iff_ne, beq_false,
    decide_eq_false_iff_not, decide_eq_true_eq, ne_eq, ← BitVec.toInt_inj]
  omega

end Condition

theorem neg_lowByte {x : BitVec 64} {c b : Bool} (h : c = b) :
    -((((x >>> 8) <<< 8 ||| (if c then 1 else 0 : BitVec 8).setWidth 64).setWidth 8).setWidth 64) = Cell.ofBool b := by
  subst h
  have hlow : ((x >>> 8) <<< 8 ||| (if c then 1 else 0 : BitVec 8).setWidth 64).setWidth 8 = if c then 1 else 0 := by
    apply BitVec.eq_of_getLsbD_eq
    intro i hi
    simp [hi]
  rw [hlow]
  cases c <;> decide

/-! ### Operations -/

/-- The larger of a cell and its negative, as far as there is one. -/
theorem ite_msb_neg (a : BitVec 64) : (if !(-a).msb then -a else a) = if a.msb then -a else a := by
  rw [BitVec.msb_neg]
  by_cases hzero : a = 0#64
  · subst hzero
    decide
  · by_cases hmin : a = BitVec.intMin 64
    · subst hmin
      decide
    · cases ha : a.msb <;> simp [hzero, hmin]

theorem toInt_signExtended (a : BitVec 64) :
    (if a.msb then BitVec.allOnes 64 else 0).toInt * 0x10000000000000000 + (a.toNat : Int) = a.toInt := by
  rw [BitVec.toInt_eq_msb_cond a]
  cases a.msb
  · simp
  · simp
    omega

theorem Machine.divideSigned_eq {m : Machine} {a b : Cell} (hrax : m.reg rax = a)
    (hrdx : m.reg rdx = if a.msb then BitVec.allOnes 64 else 0) (h : Cell.divides b a) :
    m.divideSigned b = .running ((m.setReg rax (a.sdiv b)).setReg rdx (a.srem b)) := by
  simp only [Cell.divides, Bool.and_eq_true, bne_iff_ne, ne_eq, Bool.not_eq_true', Bool.and_eq_false_imp,
    beq_iff_eq, beq_eq_false_iff_ne] at h
  obtain ⟨hzero, hrange⟩ := h
  have hquotient : (a.sdiv b).toInt = a.toInt.tdiv b.toInt := by
    refine BitVec.toInt_sdiv_of_ne_or_ne a b ?_
    rw [BitVec.neg_one_eq_allOnes]
    by_cases ha : a = BitVec.intMin 64
    · exact .inr (hrange ha)
    · exact .inl ha
  have hlt := BitVec.toInt_lt (x := a.sdiv b)
  have hle := BitVec.le_toInt (x := a.sdiv b)
  rw [divideSigned, hrax, hrdx, toInt_signExtended, ← hquotient, ← BitVec.toInt_srem, BitVec.ofInt_toInt,
    BitVec.ofInt_toInt, if_neg]
  rintro (hz | hrest)
  · exact hzero hz
  · omega

/-- A division without a quotient that fits a cell faults. -/
theorem Machine.divideSigned_eq_fault {m : Machine} {a b : Cell} (hrax : m.reg rax = a)
    (hrdx : m.reg rdx = if a.msb then BitVec.allOnes 64 else 0) (h : Cell.divides b a = false) :
    m.divideSigned b = .fault := by
  simp only [Cell.divides, Bool.and_eq_false_iff, bne_eq_false_iff_eq, Bool.not_eq_false', Bool.and_eq_true,
    beq_iff_eq] at h
  rw [divideSigned, hrax, hrdx, toInt_signExtended, if_pos]
  rcases h with hzero | ⟨rfl, rfl⟩
  · exact .inl hzero
  · exact .inr (by decide)

theorem Machine.divide_eq {m : Machine} {divisor : BitVec 64} (hrdx : m.reg rdx = 0) (h : divisor ≠ 0) :
    m.divide divisor = .running ((m.setReg rax (m.reg rax / divisor)).setReg rdx (m.reg rax % divisor)) := by
  have hpos : 0 < divisor.toNat := by
    refine Nat.pos_of_ne_zero fun hzero => h ?_
    exact BitVec.eq_of_toNat_eq (by rw [hzero]; rfl)
  have hle := Nat.div_le_self (m.reg rax).toNat divisor.toNat
  have hlt := (m.reg rax).isLt
  have hdividend : (m.reg rdx).toNat * 0x10000000000000000 + (m.reg rax).toNat = (m.reg rax).toNat := by
    rw [hrdx]
    exact Nat.zero_add _
  have hquotient : BitVec.ofNat 64 ((m.reg rax).toNat / divisor.toNat) = m.reg rax / divisor :=
    BitVec.eq_of_toNat_eq (by rw [BitVec.toNat_ofNat, BitVec.toNat_udiv, Nat.mod_eq_of_lt (by omega)])
  have hremainder : BitVec.ofNat 64 ((m.reg rax).toNat % divisor.toNat) = m.reg rax % divisor := by
    have := Nat.mod_lt (m.reg rax).toNat hpos
    have := divisor.isLt
    exact BitVec.eq_of_toNat_eq (by rw [BitVec.toNat_ofNat, BitVec.toNat_umod, Nat.mod_eq_of_lt (by omega)])
  rw [divide, hdividend, hquotient, hremainder, if_neg]
  rintro (hz | hrange)
  · exact h hz
  · omega

theorem Machine.reg_moveIf (m : Machine) (r : Register) (value : BitVec 64) (c : Bool) :
    (if c then m.setReg r value else m).reg r = if c then value else m.reg r := by
  cases c
  · rfl
  · exact m.reg_setReg_self r value

theorem Machine.reg_shift_self (m : Machine) (r : Register) (op : ShiftOp) :
    (m.shift r op).reg r = match op with
      | .left => m.reg r <<< ((m.reg rcx).toNat % 64)
      | .right => m.reg r >>> ((m.reg rcx).toNat % 64) := by
  unfold shift
  dsimp only
  split
  · next hzero => cases op <;> simp [hzero]
  · cases op <;> simp

/-- **A biased sum** overflows exactly if the sum without bias leaves the range of numbers without sign. -/
theorem saddOverflow_biased (x s : BitVec 64) :
    (x + BitVec.intMin 64).saddOverflow s = true ↔
      (x.toNat : Int) + s.toInt < 0 ∨ 2 ^ 64 ≤ (x.toNat : Int) + s.toInt := by
  have hx := x.isLt
  have hbias : (x + BitVec.intMin 64).toInt = (x.toNat : Int) - 2 ^ 63 := by
    rw [BitVec.toInt_add, BitVec.toInt_intMin, BitVec.toInt_eq_toNat_bmod, Int.bmod_def, Int.bmod_def]
    omega
  rw [BitVec.saddOverflow, hbias]
  simp only [Bool.or_eq_true, decide_eq_true_eq]
  omega

end ForthElf
