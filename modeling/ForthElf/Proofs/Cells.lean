import ForthElf.Machine.State
import ForthElf.Proofs.Decoding
import ForthElf.Word.Effect

/-!
# Cells in memory

Addresses are natural numbers here; those of a stack do not wrap around.

* `Memory.write_of_outside`, `Memory.read_write_self` — what is written is read back, and nothing else changes;
* `Stored mem base cells` — the cells of a stack lie in memory from `base` on, where a cell that is `none` may be
  anything;
* `Area` — the part of memory that belongs to a stack;
* `Area.Holds area mem pointer cells` — **a stack in memory**, with `Area.Holds.push`, `Area.Holds.drop` and
  `Area.Holds.setCell` for the operations on it.
-/

namespace ForthElf

/-! ### Bytes -/

namespace Memory

variable {mem mem' : Memory} {a x n : Nat}

theorem ofNat_ne_ofNat (ha : a < 2 ^ 64) (hx : x < 2 ^ 64) (hne : x ≠ a) : BitVec.ofNat 64 x ≠ BitVec.ofNat 64 a := by
  intro heq
  have := congrArg BitVec.toNat heq
  rw [BitVec.toNat_ofNat, BitVec.toNat_ofNat, Nat.mod_eq_of_lt hx, Nat.mod_eq_of_lt ha] at this
  exact hne this

theorem ofNat_add_one (a : Nat) : BitVec.ofNat 64 a + 1 = BitVec.ofNat 64 (a + 1) :=
  BitVec.ofNat_add_ofNat a 1

theorem write_of_outside {bytes : List UInt8} (ha : a + bytes.length ≤ 2 ^ 64) (hx : x < 2 ^ 64)
    (hout : x < a ∨ a + bytes.length ≤ x) :
    mem.write (BitVec.ofNat 64 a) bytes (BitVec.ofNat 64 x) = mem (BitVec.ofNat 64 x) := by
  induction bytes generalizing mem a with
  | nil => rfl
  | cons b bytes ih =>
    rw [List.length_cons] at ha hout
    have hne := ofNat_ne_ofNat (a := a) (by omega) hx (by omega)
    rw [write, ofNat_add_one, ih (by omega) (by omega), set_of_ne _ _ hne]

theorem read_congr (h : ∀ i < n, mem' (BitVec.ofNat 64 (a + i)) = mem (BitVec.ofNat 64 (a + i))) :
    mem'.read (BitVec.ofNat 64 a) n = mem.read (BitVec.ofNat 64 a) n := by
  induction n generalizing a with
  | zero => rfl
  | succ n ih =>
    have hrest : ∀ i < n, mem' (BitVec.ofNat 64 (a + 1 + i)) = mem (BitVec.ofNat 64 (a + 1 + i)) := by
      intro i hi
      rw [Nat.add_assoc, Nat.add_comm 1 i]
      exact h (i + 1) (Nat.succ_lt_succ hi)
    rw [read, read, ofNat_add_one, ih hrest]
    exact congrArg (· :: _) (h 0 (Nat.succ_pos n))

theorem read_write_self {bytes : List UInt8} (ha : a + bytes.length ≤ 2 ^ 64) :
    (mem.write (BitVec.ofNat 64 a) bytes).read (BitVec.ofNat 64 a) bytes.length = bytes := by
  induction bytes generalizing mem a with
  | nil => rfl
  | cons b bytes ih =>
    rw [List.length_cons] at ha ⊢
    rw [read, write, ofNat_add_one, ih (by omega), write_of_outside (by omega) (by omega) (by omega), set_self]

/-! ### Cells -/

theorem setCell_of_outside (value : BitVec 64) (ha : a + 8 ≤ 2 ^ 64) (hx : x < 2 ^ 64)
    (hout : x < a ∨ a + 8 ≤ x) :
    mem.setCell (BitVec.ofNat 64 a) value (BitVec.ofNat 64 x) = mem (BitVec.ofNat 64 x) :=
  write_of_outside (by rwa [littleEndian_length]) hx (by rwa [littleEndian_length])

theorem cell_setCell_self (value : BitVec 64) (ha : a + 8 ≤ 2 ^ 64) :
    (mem.setCell (BitVec.ofNat 64 a) value).cell (BitVec.ofNat 64 a) = value := by
  have hbytes : a + (littleEndian 8 value.toNat).length ≤ 2 ^ 64 := by rwa [littleEndian_length]
  have hread := mem.read_write_self hbytes
  rw [littleEndian_length] at hread
  have hlt : value.toNat < 256 ^ 8 := Nat.lt_of_lt_of_eq value.isLt (by decide)
  rw [cell, setCell, hread, ofLittleEndian_littleEndian, Nat.mod_eq_of_lt hlt, BitVec.ofNat_toNat, BitVec.setWidth_eq]

theorem cell_congr (h : ∀ i < 8, mem' (BitVec.ofNat 64 (a + i)) = mem (BitVec.ofNat 64 (a + i))) :
    mem'.cell (BitVec.ofNat 64 a) = mem.cell (BitVec.ofNat 64 a) := by
  rw [cell, cell, read_congr h]

theorem lowByte_cell (mem : Memory) (address : BitVec 64) : Cell.lowByte (mem.cell address) = mem address := by
  have hlt : ofLittleEndian (mem.read address 8) < 2 ^ 64 := by
    have := ofLittleEndian_lt (mem.read address 8)
    rwa [length_read] at this
  rw [Cell.lowByte, cell, BitVec.toNat_ofNat, Nat.mod_eq_of_lt hlt, read, ofLittleEndian]
  apply UInt8.toNat_inj.mp
  rw [UInt8.toNat_ofNat']
  have := (mem address).toNat_lt
  omega

end Memory

/-! ### Stacks in memory -/

/-- The cells of a stack, its top first, lie in memory from `base` on; a cell that is `none` may be anything. -/
def Stored (mem : Memory) (base : Nat) (cells : List (Option Cell)) : Prop :=
  ∀ i value, cells[i]? = some (some value) → mem.cell (BitVec.ofNat 64 (base + 8 * i)) = value

namespace Stored

variable {mem mem' : Memory} {base : Nat} {cells : List (Option Cell)}

theorem nil (mem : Memory) (base : Nat) : Stored mem base [] := by
  intro i value h
  cases h

theorem congr (h : Stored mem base cells)
    (hsame : ∀ x, base ≤ x → x < base + 8 * cells.length → mem' (BitVec.ofNat 64 x) = mem (BitVec.ofNat 64 x)) :
    Stored mem' base cells := by
  intro i value hi
  have hlt := (List.getElem?_eq_some_iff.mp hi).1
  rw [← h i value hi]
  exact Memory.cell_congr fun j hj => hsame _ (by omega) (by omega)

/-- A cell of unknown value goes on top. -/
theorem push (h : Stored mem (base + 8) cells) : Stored mem base (none :: cells) := by
  intro i value hi
  cases i with
  | zero => cases hi
  | succ i =>
    have haddress : base + 8 * (i + 1) = base + 8 + 8 * i := by omega
    rw [haddress]
    exact h i value hi

theorem drop (h : Stored mem base cells) (n : Nat) : Stored mem (base + 8 * n) (cells.drop n) := by
  intro i value hi
  rw [List.getElem?_drop] at hi
  have haddress : base + 8 * n + 8 * i = base + 8 * (n + i) := by omega
  rw [haddress]
  exact h (n + i) value hi

theorem setCell (h : Stored mem base cells) {i : Nat} (hi : i < cells.length)
    (hend : base + 8 * cells.length ≤ 2 ^ 64) (value : Cell) :
    Stored (mem.setCell (BitVec.ofNat 64 (base + 8 * i)) value) base (cells.set i (some value)) := by
  intro j v hj
  by_cases hij : i = j
  · subst hij
    rw [List.getElem?_set_self hi] at hj
    cases hj
    exact Memory.cell_setCell_self value (by omega)
  · rw [List.getElem?_set_ne hij] at hj
    have hlt := (List.getElem?_eq_some_iff.mp hj).1
    rw [← h j v hj]
    exact Memory.cell_congr fun b hb => Memory.setCell_of_outside value (by omega) (by omega) (by omega)

end Stored

/-! ### Areas of memory -/

/-- The part of memory that belongs to a stack: so many cells below its upper end. -/
structure Area where
  top : Nat
  cells : Nat
  le_top : 8 * cells ≤ top
  top_lt : top < 2 ^ 64

namespace Area

def Contains (area : Area) (x : Nat) : Prop :=
  area.top - 8 * area.cells ≤ x ∧ x < area.top

/-- The address of the uppermost of so many cells. -/
def base (area : Area) (n : Nat) : Nat :=
  area.top - 8 * n

/-- The cells of a stack lie in an area, and `pointer` is the address of its top. -/
structure Holds (area : Area) (mem : Memory) (pointer : BitVec 64) (cells : List (Option Cell)) : Prop where
  room : cells.length ≤ area.cells
  pointer_eq : pointer = BitVec.ofNat 64 (area.base cells.length)
  stored : Stored mem (area.base cells.length) cells

variable {area : Area} {mem mem' : Memory} {pointer : BitVec 64} {cells : List (Option Cell)} {i n : Nat}

theorem base_add (area : Area) (hn : n ≤ area.cells) : area.base n + 8 * n = area.top := by
  have := area.le_top
  unfold base
  omega

namespace Holds

theorem address_eq (h : area.Holds mem pointer cells) (i : Nat) :
    pointer + BitVec.ofNat 64 (8 * i) = BitVec.ofNat 64 (area.base cells.length + 8 * i) := by
  rw [h.pointer_eq, BitVec.ofNat_add_ofNat]

/-- The cells end where the area ends. -/
theorem toNat_pointer_add (h : area.Holds mem pointer cells) : pointer.toNat + 8 * cells.length = area.top := by
  have htop := area.base_add h.room
  have hlt := area.top_lt
  rw [h.pointer_eq, BitVec.toNat_ofNat, Nat.mod_eq_of_lt (by omega), htop]

theorem cell_eq (h : area.Holds mem pointer cells) {value : Cell} (hi : cells[i]? = some (some value)) :
    mem.cell (pointer + BitVec.ofNat 64 (8 * i)) = value := by
  rw [h.address_eq]
  exact h.stored i value hi

theorem congr (h : area.Holds mem pointer cells)
    (hsame : ∀ x, area.Contains x → mem' (BitVec.ofNat 64 x) = mem (BitVec.ofNat 64 x)) :
    area.Holds mem' pointer cells := by
  refine ⟨h.room, h.pointer_eq, h.stored.congr fun x hle hlt => hsame x ?_⟩
  have hroom := h.room
  rw [area.base_add hroom] at hlt
  unfold base at hle
  exact ⟨by omega, hlt⟩

theorem setCell (h : area.Holds mem pointer cells) (hi : i < cells.length) (value : Cell) :
    area.Holds (mem.setCell (pointer + BitVec.ofNat 64 (8 * i)) value) pointer (cells.set i (some value)) := by
  have htop := area.base_add h.room
  have hlt := area.top_lt
  refine ⟨by rw [List.length_set]; exact h.room, by rw [List.length_set]; exact h.pointer_eq, ?_⟩
  rw [h.address_eq, List.length_set]
  exact h.stored.setCell hi (by omega) value

theorem setCell_of_outside (h : area.Holds mem pointer cells) (hi : i < cells.length) (value : Cell) {x : Nat}
    (hx : x < 2 ^ 64) (hout : ¬area.Contains x) :
    mem.setCell (pointer + BitVec.ofNat 64 (8 * i)) value (BitVec.ofNat 64 x) = mem (BitVec.ofNat 64 x) := by
  have hroom := h.room
  have htop := area.base_add hroom
  have hlt := area.top_lt
  rw [h.address_eq]
  refine Memory.setCell_of_outside value (by omega) hx ?_
  unfold Contains at hout
  unfold base at htop ⊢
  omega

theorem push (h : area.Holds mem pointer cells) (hroom : cells.length + n ≤ area.cells) :
    area.Holds mem (pointer - BitVec.ofNat 64 (8 * n)) (List.replicate n none ++ cells) := by
  have hlength : (List.replicate n none ++ cells).length = n + cells.length := by simp
  have htop := area.base_add hroom
  have htop' := area.base_add h.room
  refine ⟨by omega, ?_, ?_⟩
  · rw [h.pointer_eq, hlength, Nat.add_comm n, BitVec.sub_eq_iff_eq_add, BitVec.ofNat_add_ofNat]
    congr 1
    omega
  · rw [hlength, Nat.add_comm n]
    have hstored := h.stored
    have hbase : area.base cells.length = area.base (cells.length + n) + 8 * n := by omega
    rw [hbase] at hstored
    generalize area.base (cells.length + n) = base at hstored
    clear hlength htop htop' hbase hroom
    induction n generalizing base with
    | zero => exact hstored
    | succ n ih =>
      rw [List.replicate_succ, List.cons_append]
      refine Stored.push (ih (base + 8) ?_)
      have hsum : base + 8 * (n + 1) = base + 8 + 8 * n := by omega
      rwa [hsum] at hstored

theorem drop (h : area.Holds mem pointer cells) (hn : n ≤ cells.length) :
    area.Holds mem (pointer + BitVec.ofNat 64 (8 * n)) (cells.drop n) := by
  have hroom := h.room
  have hbase : area.base (cells.drop n).length = area.base cells.length + 8 * n := by
    have hle := area.le_top
    rw [List.length_drop]
    unfold base
    omega
  refine ⟨by rw [List.length_drop]; omega, ?_, ?_⟩
  · rw [h.address_eq, hbase]
  · rw [hbase]
    exact h.stored.drop n

end Holds

end Area

end ForthElf
