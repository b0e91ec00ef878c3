import ForthElf.Proofs.Constructs

/-!
# Machines that represent stacks

What a process does to the cells that it works on says what a machine does that has these cells on top of others.

* `Machine.Represents m st` — the stacks of a status stand in memory from `rbx` and `rsp` upward, apart from a top
  cell in `rax`;
* `Machine.Laid m free cells` — so many cells below the tops of the stacks and from there on are apart;
* `Machine.Represents.takes` — **what a process does to the upper cells, the machine does with all other memory as it
  is**.
-/

namespace ForthElf

open Register

/-! ### Stacks in memory -/

namespace Status

def inMemory (st : Status) : Stack → List Cell
  | .data => match st.place with
    | .cached => st.data.tail
    | .spilled => st.data
  | .ret => st.ret

theorem length_inMemory (st : Status) (s : Stack) : (st.inMemory s).length = st.size s := by
  obtain ⟨place, data, ret, output⟩ := st
  cases s with
  | ret => rfl
  | data =>
    cases place with
    | cached => exact List.length_tail
    | spilled => rfl

/-- The status with other cells below those of its stacks. -/
def above (st : Status) (rest : Stack → List Cell) : Status :=
  ⟨st.place, st.data ++ rest .data, st.ret ++ rest .ret, st.output⟩

theorem above_nil (st : Status) : st.above (fun _ => []) = st := by
  simp only [above, List.append_nil]

/-- A top cell in `rax` is a cell of the stack. -/
def Sound (st : Status) : Prop :=
  st.place = .cached → st.data ≠ []

theorem inMemory_above {st : Status} (h : st.Sound) (rest : Stack → List Cell) (s : Stack) :
    (st.above rest).inMemory s = st.inMemory s ++ rest s := by
  obtain ⟨place, data, ret, output⟩ := st
  cases s with
  | ret => rfl
  | data =>
    cases place with
    | cached => exact List.tail_append_of_ne_nil (h rfl)
    | spilled => rfl

theorem size_above {st : Status} (h : st.Sound) (rest : Stack → List Cell) (s : Stack) :
    (st.above rest).size s = st.size s + (rest s).length := by
  rw [← length_inMemory, inMemory_above h, List.length_append, length_inMemory]

theorem Matches.sound {st : Status} {v : View} (h : st.Matches v) : st.Sound := by
  intro hplace hnil
  have hdata := h.data
  rw [hplace, hnil] at hdata
  cases hdata

theorem Matches.cells_eq_inMemory {st : Status} {v : View} (h : st.Matches v) (s : Stack) :
    v.cells s = (st.inMemory s).map some := by
  obtain ⟨place, data, ret, output⟩ := st
  cases s with
  | ret => exact h.ret
  | data =>
    have hdata := h.data
    cases place with
    | cached =>
      cases data with
      | nil => cases hdata
      | cons a rest => exact (List.cons.inj hdata).2
    | spilled => exact hdata

end Status

namespace Machine

/-- The machine has the stacks of a status in memory, from their pointers upward. -/
structure Represents (m : Machine) (st : Status) : Prop where
  top : st.place = .cached → st.data.head? = some (m.reg rax)
  stored : ∀ s i a, (st.inMemory s)[i]? = some a → m.mem.cell (m.reg s.pointer + BitVec.ofNat 64 (8 * i)) = a
  output : m.output = st.output

theorem pointer_add (m : Machine) (s : Stack) (n : Nat) :
    m.reg s.pointer + BitVec.ofNat 64 n = BitVec.ofNat 64 ((m.reg s.pointer).toNat + n) := by
  rw [← BitVec.ofNat_add_ofNat, BitVec.ofNat_toNat, BitVec.setWidth_eq]

theorem pointer_eq_add {m m' : Machine} {s : Stack} {n : Nat}
    (h : (m'.reg s.pointer).toNat = (m.reg s.pointer).toNat + n) :
    m'.reg s.pointer = m.reg s.pointer + BitVec.ofNat 64 n := by
  rw [pointer_add, ← h, BitVec.ofNat_toNat, BitVec.setWidth_eq]

/-- The address `x` belongs to the `free` cells below the top of a stack or to the `cells` from there on. -/
def Spans (m : Machine) (s : Stack) (free cells x : Nat) : Prop :=
  (m.reg s.pointer).toNat - 8 * free ≤ x ∧ x < (m.reg s.pointer).toNat + 8 * cells

/-- These cells of the two stacks have addresses of their own. -/
structure Laid (m : Machine) (free cells : Stack → Nat) : Prop where
  free_le : ∀ s, 8 * free s ≤ (m.reg s.pointer).toNat
  cells_lt : ∀ s, (m.reg s.pointer).toNat + 8 * cells s < 2 ^ 64
  apart : ∀ x, m.Spans .data (free .data) (cells .data) x → ¬m.Spans .ret (free .ret) (cells .ret) x

namespace Laid

variable {m : Machine} {free cells cells' : Stack → Nat}

theorem mono (h : m.Laid free cells) (hle : ∀ s, cells' s ≤ cells s) : m.Laid free cells' := by
  refine ⟨h.free_le, fun s => ?_, fun x hdata hret => ?_⟩
  · have hlt := h.cells_lt s
    have hcells := hle s
    omega
  · refine h.apart x ⟨hdata.1, ?_⟩ ⟨hret.1, ?_⟩
    · exact Nat.lt_of_lt_of_le hdata.2 (Nat.add_le_add_left (Nat.mul_le_mul_left 8 (hle .data)) _)
    · exact Nat.lt_of_lt_of_le hret.2 (Nat.add_le_add_left (Nat.mul_le_mul_left 8 (hle .ret)) _)

theorem eq_of_spans (h : m.Laid free cells) {s t : Stack} {x : Nat} (hs : m.Spans s (free s) (cells s) x)
    (ht : m.Spans t (free t) (cells t) x) : s = t := by
  cases s <;> cases t
  · rfl
  · exact absurd ht (h.apart x hs)
  · exact absurd hs (h.apart x ht)
  · rfl

def areas (h : m.Laid free cells) : Areas where
  area := fun s => ⟨(m.reg s.pointer).toNat + 8 * cells s, free s + cells s, by
    have := h.free_le s
    omega, h.cells_lt s⟩
  apart := by
    intro s t x hs ht
    refine h.eq_of_spans (x := x) ⟨?_, hs.2⟩ ⟨?_, ht.2⟩
    · have := hs.1
      dsimp only at this
      omega
    · have := ht.1
      dsimp only at this
      omega

theorem contains_areas (h : m.Laid free cells) {s : Stack} {x : Nat} :
    (h.areas.area s).Contains x ↔ m.Spans s (free s) (cells s) x := by
  have hle := h.free_le s
  have hlower :
      (m.reg s.pointer).toNat + 8 * cells s - 8 * (free s + cells s) = (m.reg s.pointer).toNat - 8 * free s := by
    omega
  show _ ≤ x ∧ _ ↔ _
  rw [Spans, ← hlower]
  rfl

/-- The process that works on these cells. -/
def process (h : m.Laid free cells) (kernel : Kernel) {code : LoadedCode} {instructions : List Instruction}
    (hcode : code.Consists instructions) : Process :=
  ⟨kernel, code, h.areas, instructions, hcode⟩

end Laid

/-! ### From processes to machines -/

namespace Represents

variable {m : Machine} {st st' : Status} {rest : Stack → List Cell}

def view (m : Machine) (st : Status) : View :=
  ⟨m.reg, m.flags, fun s => (st.inMemory s).map some, m.mem, m.output⟩

theorem of_above (h : m.Represents (st.above rest)) (hst : st.Sound) : m.Represents st := by
  refine ⟨fun hplace => ?_, fun s i a hi => h.stored s i a ?_, h.output⟩
  · obtain ⟨a, data, hdata⟩ := List.exists_cons_of_ne_nil (hst hplace)
    have htop := h.top hplace
    rw [Status.above, hdata] at htop
    rw [hdata]
    exact htop
  · rw [Status.inMemory_above hst, List.getElem?_append_left (List.getElem?_eq_some_iff.mp hi).1, hi]

theorem matches_view (h : m.Represents st) : st.Matches (view m st) := by
  obtain ⟨place, data, ret, output⟩ := st
  refine ⟨?_, rfl, h.output⟩
  cases place with
  | spilled => rfl
  | cached =>
    cases data with
    | nil => cases h.top rfl
    | cons a data =>
      have htop : a = m.reg rax := Option.some.inj (h.top rfl)
      rw [htop]
      rfl

theorem stands_view (h : m.Represents st) {free : Stack → Nat} (hlaid : m.Laid free st.size) {code : LoadedCode}
    {p : Nat} (hip : m.ip = code.address p) : Stands code hlaid.areas (view m st) p m := by
  refine ⟨⟨rfl, rfl, rfl, fun s => ?_, fun _ _ _ => rfl⟩, hip⟩
  have hlength : ((view m st).cells s).length = st.size s := by rw [view, List.length_map, st.length_inMemory]
  have hbase : (hlaid.areas.area s).base (st.size s) = (m.reg s.pointer).toNat :=
    Nat.add_sub_cancel _ _
  refine ⟨?_, ?_, ?_⟩
  · rw [hlength]
    exact Nat.le_add_left _ _
  · rw [hlength, hbase, BitVec.ofNat_toNat, BitVec.setWidth_eq]
    rfl
  · rw [hlength, hbase]
    intro i a hi
    rw [← m.pointer_add]
    rw [view, List.getElem?_map] at hi
    obtain ⟨b, hb, hba⟩ := Option.map_eq_some_iff.mp hi
    rw [← Option.some.inj hba]
    exact h.stored s i b hb

/-- The lower cells stay where they are if memory stays as it is outside the upper ones. -/
theorem stored_lower {m' : Machine} (h : m.Represents (st.above rest)) (hst : st.Sound) {free : Stack → Nat}
    (hlaid : m.Laid free (st.above rest).size)
    (hsame : ∀ x : BitVec 64, (∀ s, ¬m.Spans s (free s) (st.size s) x.toNat) → m'.mem x = m.mem x) {s : Stack}
    {n j : Nat} (hpointer : (m'.reg s.pointer).toNat + 8 * n = (m.reg s.pointer).toNat + 8 * st.size s) {a : Cell}
    (hj : (rest s)[j]? = some a) : m'.mem.cell (m'.reg s.pointer + BitVec.ofNat 64 (8 * (n + j))) = a := by
  have hbelow : ((st.above rest).inMemory s)[st.size s + j]? = some a := by
    rw [Status.inMemory_above hst, ← st.length_inMemory, List.getElem?_append_right (Nat.le_add_right _ _),
      Nat.add_sub_cancel_left, hj]
  have hlt := (List.getElem?_eq_some_iff.mp hj).1
  have hsize := Status.size_above hst rest
  have hend := hlaid.cells_lt s
  rw [hsize] at hend
  have haddress : (m'.reg s.pointer).toNat + 8 * (n + j) = (m.reg s.pointer).toNat + 8 * (st.size s + j) := by omega
  rw [m'.pointer_add, haddress, ← h.stored s _ a hbelow, m.pointer_add]
  refine Memory.cell_congr fun b hb => hsame _ fun t ht => ?_
  rw [BitVec.toNat_ofNat, Nat.mod_eq_of_lt (by omega)] at ht
  -- No upper cell of either stack has this address.
  have hts : t = s := by
    refine hlaid.eq_of_spans ⟨ht.1, ?_⟩ ⟨by omega, ?_⟩
    · have hx := ht.2
      rw [hsize]
      omega
    · rw [hsize]
      omega
  subst hts
  have hx := ht.2
  omega

/-- **What a process does to the upper cells, the machine does with all other memory as it is.** -/
theorem takes {kernel : Kernel} {code : LoadedCode} {instructions : List Instruction}
    (hcode : code.Consists instructions)
    {p p' : Nat} (hip : m.ip = code.address p) (h : m.Represents (st.above rest)) (hst : st.Sound) {free : Stack → Nat}
    (hlaid : m.Laid free (st.above rest).size) (htight : m.Laid free st.size)
    (htakes : (htight.process kernel hcode).Takes p st p' st') :
    ∃ m', Reaches kernel code m m' ∧ m'.ip = code.address p' ∧ m'.Represents (st'.above rest) ∧
      (∀ s, (m'.reg s.pointer).toNat + 8 * (st'.above rest).size s =
        (m.reg s.pointer).toNat + 8 * (st.above rest).size s) ∧
      ∀ x, (∀ s, ¬m.Spans s (free s) (st.size s) x.toNat) → m'.mem x = m.mem x := by
  have hupper := h.of_above hst
  obtain ⟨m', v', hr, h', hmatches, hmem⟩ :=
    htakes m.mem m (view m st) (hupper.stands_view htight hip) ⟨hupper.matches_view, rfl⟩
  have hst' := hmatches.sound
  have hlength : ∀ s, (v'.cells s).length = st'.size s := hmatches.length_cells
  have hpointers : ∀ s, (m'.reg s.pointer).toNat + 8 * st'.size s = (m.reg s.pointer).toNat + 8 * st.size s := by
    intro s
    rw [← hlength s, h'.looks.reg]
    exact (h'.looks.holds s).toNat_pointer_add
  have hsame : ∀ x : BitVec 64, (∀ s, ¬m.Spans s (free s) (st.size s) x.toNat) → m'.mem x = m.mem x := by
    intro x hout
    have hother := h'.looks.other x.toNat x.isLt fun s => mt htight.contains_areas.mp (hout s)
    rwa [hmem, BitVec.ofNat_toNat, BitVec.setWidth_eq] at hother
  refine ⟨m', hr, h'.ip_eq, ⟨fun hplace => ?_, fun s i a hi => ?_, ?_⟩, fun s => ?_, hsame⟩
  · obtain ⟨a, data, hdata⟩ := List.exists_cons_of_ne_nil (hst' hplace)
    have hstack := hmatches.data
    rw [show st'.place = .cached from hplace, hdata] at hstack
    rw [Status.above, hdata, h'.looks.reg]
    exact (List.cons.inj hstack).1.symm
  · rw [Status.inMemory_above hst', List.getElem?_append, st'.length_inMemory] at hi
    split at hi
    · have hcell : (v'.cells s)[i]? = some (some a) := by
        rw [hmatches.cells_eq_inMemory, List.getElem?_map, hi]
        rfl
      rw [h'.looks.reg]
      exact (h'.looks.holds s).cell_eq hcell
    · next hge =>
      have hstored := h.stored_lower hst hlaid hsame (hpointers s) hi
      rwa [Nat.add_sub_cancel' (Nat.not_lt.mp hge)] at hstored
  · rw [h'.looks.output]
    exact hmatches.output
  · have hends := hpointers s
    rw [Status.size_above hst', Status.size_above hst]
    omega

theorem takes_alone {kernel : Kernel} {code : LoadedCode} {instructions : List Instruction}
    (hcode : code.Consists instructions) {p p' : Nat} (hip : m.ip = code.address p) (h : m.Represents st)
    (hst : st.Sound)
    {free : Stack → Nat} (hlaid : m.Laid free st.size) (htakes : (hlaid.process kernel hcode).Takes p st p' st') :
    ∃ m', Reaches kernel code m m' ∧ m'.ip = code.address p' ∧ m'.Represents st' ∧
      (∀ s, (m'.reg s.pointer).toNat + 8 * st'.size s = (m.reg s.pointer).toNat + 8 * st.size s) ∧
      ∀ x, (∀ s, ¬m.Spans s (free s) (st.size s) x.toNat) → m'.mem x = m.mem x := by
  have hall : m.Represents (st.above fun _ => []) := by rwa [st.above_nil]
  have hlaid' : m.Laid free (st.above fun _ => []).size := by rwa [st.above_nil]
  have htakes' := hall.takes hcode hip hst hlaid' hlaid htakes
  rwa [st.above_nil, st'.above_nil] at htakes'

end Represents

end Machine

end ForthElf
