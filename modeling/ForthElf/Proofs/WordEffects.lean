import ForthElf.Proofs.Encoding
import ForthElf.Proofs.Representation
import ForthElf.Proofs.Steps

/-!
# Built-in words on machines

* `Primitive.operands`, `Primitive.returnOperands` — how many cells a word looks at;
* `Machine.Ready m p place w` — the machine represents the stacks, the word finds its operands, and the free cells
  that it fills are there;
* `Machine.Becomes` — what a machine has become after a word;
* `words_exact` — **the code of a word has the effect of the word**, wherever the top cell is, and changes nothing else.

Words that store may do so in the stacks themselves, so their code is followed on the machine and not on a view of it.
-/

namespace ForthElf

open Register

/-! ### Operands -/

namespace Primitive

/-- The cells of the data stack that a word looks at. -/
def operands : Primitive → Nat
  | .newline | .bye | .fromReturn | .returnFetch => 0
  | .rot | .minusRot => 3
  | .swap | .over | .nip | .tuck | .twoDup | .add | .sub | .mul | .div | .mod | .max | .min | .and | .or | .xor
  | .leftShift | .rightShift | .equal | .notEqual | .less | .greater | .store | .storeByte | .plusStore => 2
  | _ => 1

/-- The cells of the return stack that a word looks at. -/
def returnOperands : Primitive → Nat
  | .fromReturn | .returnFetch => 1
  | _ => 0

/-- The free cells next to a stack that a word may fill. -/
def spare (p : Primitive) (place : CacheState) : Stack → Nat
  | .data => match place with
    | .cached => p.reserve
    | .spilled => p.reserve - 1
  | .ret => p.returnReserve

/-- The cells of a stack in memory that a word looks at. -/
def touched (p : Primitive) (place : CacheState) : Stack → Nat
  | .data => match place with
    | .cached => p.operands - 1
    | .spilled => p.operands
  | .ret => p.returnOperands

/-- The cells of the data stack that a word works on, a top cell in `rax` included. -/
def depth (p : Primitive) (place : CacheState) : Nat :=
  match place with
  | .cached => p.operands - 1 + 1
  | .spilled => p.operands

theorem operands_le_depth (p : Primitive) (place : CacheState) : p.operands ≤ p.depth place := by
  cases place with
  | cached => exact Nat.le_add_of_sub_le (Nat.le_refl _)
  | spilled => exact Nat.le_refl _

variable {p : Primitive} {w w' : World}

/-- A word that finds its operands has no meaning only if it divides without a quotient that fits a cell. -/
theorem exists_of_undefined (hdata : p.operands ≤ w.data.length) (hret : p.returnOperands ≤ w.ret.length)
    (he : p.effect w = .undefined) :
    (p = .div ∨ p = .mod) ∧ ∃ b a rest, w.data = b :: a :: rest ∧ Cell.divides b a = false := by
  obtain ⟨cells, ret, mem, output⟩ := w
  cases p
  case div | mod =>
    rcases cells with _ | ⟨b, _ | ⟨a, rest⟩⟩
    · exact absurd hdata (by simp [operands])
    · exact absurd hdata (by simp [operands])
    · refine ⟨by simp, b, a, rest, rfl, ?_⟩
      cases hdivides : Cell.divides b a with
      | false => rfl
      | true =>
        simp only [effect, World.dividing, hdivides] at he
        cases he
  case newline | bye => cases he
  case fromReturn | returnFetch =>
    rcases ret with _ | ⟨a, ret⟩
    · exact absurd hret (by simp [returnOperands])
    · cases he
  all_goals
    rcases cells with _ | ⟨c, _ | ⟨b, _ | ⟨a, rest⟩⟩⟩ <;>
      first | cases he; done | exact absurd hdata (by simp [operands])

theorem mem_of_effect (hp : p.usesMemory = false) (he : p.effect w = .goesOn w') : w'.mem = w.mem := by
  obtain ⟨cells, ret, mem, output⟩ := w
  cases p
  case fetch | store | fetchByte | storeByte | plusStore => cases hp
  case bye => cases he
  case newline =>
    cases he
    rfl
  case fromReturn | returnFetch =>
    rcases ret with _ | ⟨a, ret⟩ <;> cases he
    rfl
  case div | mod =>
    obtain ⟨b, a, rest, -, -, rfl⟩ := World.exists_of_dividing_goesOn he
    rfl
  all_goals
    rcases cells with _ | ⟨c, _ | ⟨b, _ | ⟨a, rest⟩⟩⟩ <;> first | cases he; rfl | cases he

end Primitive

/-! ### The upper part of the stacks -/

namespace World

theorem exists_of_onTop {w w' : World} {f : Cell → Cell} (h : w.onTop f = .goesOn w') :
    ∃ a rest, w.data = a :: rest ∧ w' = { w with data := f a :: rest } := by
  cases hw : w.data with
  | nil =>
    rw [onTop, hw] at h
    cases h
  | cons a rest => exact ⟨a, rest, rfl, eq_of_onTop hw h⟩

theorem exists_of_storing {w w' : World} {f : Memory → Cell → Cell → Memory} (h : w.storing f = .goesOn w') :
    ∃ a b rest, w.data = a :: b :: rest ∧ w' = { w with data := rest, mem := f w.mem a b } := by
  rw [storing] at h
  split at h
  · next a b rest hw =>
    cases h
    exact ⟨a, b, rest, hw, rfl⟩
  · cases h

def status (w : World) (place : CacheState) : Status :=
  ⟨place, w.data, w.ret, w.output⟩

def upper (w : World) (p : Primitive) (place : CacheState) : World :=
  { w with data := w.data.take (p.depth place), ret := w.ret.take p.returnOperands }

def lower (w : World) (p : Primitive) (place : CacheState) : Stack → List Cell
  | .data => w.data.drop (p.depth place)
  | .ret => w.ret.drop p.returnOperands

theorem status_upper_above (w : World) (p : Primitive) (place : CacheState) :
    ((w.upper p place).status place).above (w.lower p place) = w.status place := by
  simp only [status, upper, lower, Status.above, List.take_append_drop]

/-- A word has its effect on the cells that it works on. -/
theorem exists_effect_upper {p : Primitive} {place : CacheState} {w w' : World} (he : p.effect w = .goesOn w')
    (hdata : p.operands ≤ (w.upper p place).data.length) (hret : p.returnOperands ≤ (w.upper p place).ret.length) :
    ∃ u, p.effect (w.upper p place) = .goesOn u ∧
      ∀ place', (u.status place').above (w.lower p place) = w'.status place' := by
  have hwhole : { w.upper p place with data := (w.upper p place).data ++ w.lower p place .data
                                       ret := (w.upper p place).ret ++ w.lower p place .ret } = w := by
    simp only [upper, lower, List.take_append_drop]
  cases hu : p.effect (w.upper p place) with
  | goesOn u =>
    have happend := p.effect_append hu (w.lower p place .data) (w.lower p place .ret)
    rw [hwhole, he] at happend
    cases happend
    exact ⟨u, rfl, fun _ => rfl⟩
  | halts =>
    obtain rfl := Primitive.eq_bye_of_halts hu
    cases he
  | undefined =>
    -- A division that has no quotient has none above other cells either.
    obtain ⟨hp, b, a, rest, hcells, hdivides⟩ := Primitive.exists_of_undefined hdata hret hu
    have hw : w.data = b :: a :: (rest ++ w.lower p place .data) :=
      (List.take_append_drop (p.depth place) w.data).symm.trans (congrArg (· ++ w.lower p place .data) hcells)
    have hdividing : ∀ f, w.dividing f = .undefined := by
      intro f
      rw [dividing, hw]
      exact if_neg (by simp [hdivides])
    rcases hp with rfl | rfl
    · cases (hdividing _).symm.trans he
    · cases (hdividing _).symm.trans he

end World

/-! ### Machines before and after a word -/

namespace Machine

/-- The machine represents the stacks, the word finds its operands, and the free cells that it fills are there. -/
structure Ready (m : Machine) (p : Primitive) (place : CacheState) (w : World) : Prop where
  represents : m.Represents (w.status place)
  memory : m.mem = w.mem
  operands : p.operands ≤ w.data.length
  returnOperands : p.returnOperands ≤ w.ret.length
  laid : m.Laid (p.spare place) (w.status place).size

/-- The machine `m` has become `m'` by a word that takes `w` to `w'`: it represents the stacks after the word, unless
the word stores into their cells; the stacks end where they did; and memory is what the word makes of it, apart from
operands and free cells of a word that works on the stacks. -/
structure Becomes (m m' : Machine) (p : Primitive) (place place' : CacheState) (w w' : World) : Prop where
  represents : (∀ s x, m'.Spans s 0 ((w'.status place').size s) x.toNat → w'.mem x = w.mem x) →
    m'.Represents (w'.status place')
  pointers : ∀ s, (m'.reg s.pointer).toNat + 8 * (w'.status place').size s =
    (m.reg s.pointer).toNat + 8 * (w.status place).size s
  memory : ∀ x, p.usesMemory ∨ (∀ s, ¬m.Spans s (p.spare place s) (p.touched place s) x.toNat) → m'.mem x = w'.mem x
  output : m'.output = w'.output

variable {m m' : Machine} {word : Primitive} {place : CacheState} {w w' : World} {kernel : Kernel} {code : LoadedCode}
  {instructions : List Instruction} {p r : Nat}

/-! ### Words that leave memory alone -/

namespace Ready

theorem sound (h : m.Ready word place w) : (w.status place).Sound := by
  intro hplace hnil
  have htop := h.represents.top hplace
  rw [hnil] at htop
  cases htop

theorem length_data (h : m.Ready word place w) : (w.upper word place).data.length = word.depth place := by
  refine List.length_take_of_le ?_
  have hoperands := h.operands
  cases place with
  | spilled => exact hoperands
  | cached =>
    have hpos : 0 < w.data.length := List.length_pos_iff.mpr (h.sound rfl)
    rw [Primitive.depth]
    omega

theorem length_ret (h : m.Ready word place w) : (w.upper word place).ret.length = word.returnOperands :=
  List.length_take_of_le h.returnOperands

theorem size_upper (h : m.Ready word place w) (s : Stack) :
    ((w.upper word place).status place).size s = word.touched place s := by
  cases s with
  | ret => exact h.length_ret
  | data =>
    have hlength := h.length_data
    cases place with
    | cached => exact Nat.sub_eq_of_eq_add hlength
    | spilled => exact hlength

theorem sound_upper (h : m.Ready word place w) : ((w.upper word place).status place).Sound := by
  rintro rfl hnil
  have hlength := h.length_data
  rw [show (w.upper word .cached).data = [] from hnil] at hlength
  exact absurd hlength.symm (Nat.succ_ne_zero _)

theorem becomes_of_stacks (h : m.Ready word place w) (hmemory : word.usesMemory = false)
    (hcode : code.Consists instructions) (hip : m.ip = code.address p)
    (hroutine : word = .dot → Placed instructions r printNumber)
    (hblock : Placed instructions p (word.recipe.code r p place)) (he : word.effect w = .goesOn w') :
    ∃ m', Reaches kernel code m m' ∧ m'.ip = code.address (p + codeSize (word.recipe.code r p place)) ∧
      m.Becomes m' word place word.recipe.exitState w w' := by
  have hdata : word.operands ≤ (w.upper word place).data.length := by
    rw [h.length_data]
    exact word.operands_le_depth place
  obtain ⟨u, hu, hstatus⟩ := World.exists_effect_upper he hdata (Nat.le_of_eq h.length_ret.symm)
  have hrepresents := h.represents
  have hlaid := h.laid
  rw [← w.status_upper_above word place] at hrepresents hlaid
  have htight : m.Laid (word.spare place) ((w.upper word place).status place).size := by
    refine hlaid.mono fun s => ?_
    rw [Status.size_above h.sound_upper]
    exact Nat.le_add_right _ _
  have htakes : (htight.process kernel hcode).Takes p ((w.upper word place).status place)
      (p + codeSize (word.recipe.code r p place)) (u.status word.recipe.exitState) := by
    have hroom : ∀ s, (htight.process kernel hcode).room s = word.spare place s + word.touched place s :=
      fun s => congrArg (word.spare place s + ·) (h.size_upper s)
    refine Process.takes_word hmemory hroutine hblock hu ?_ ?_
    · rw [hroom, h.length_data]
      cases place <;> simp only [Primitive.depth, Primitive.spare, Primitive.touched] <;> omega
    · rw [hroom, h.length_ret]
      exact Nat.le_of_eq (Nat.add_comm _ _)
  obtain ⟨m', hm', hip', hrep', hpointers, hmem'⟩ := hrepresents.takes hcode hip h.sound_upper hlaid htight htakes
  rw [hstatus] at hrep' hpointers
  rw [w.status_upper_above] at hpointers
  refine ⟨m', hm', hip', ⟨fun _ => hrep', hpointers, fun x hx => ?_, hrep'.output⟩⟩
  rw [Primitive.mem_of_effect hmemory he, ← h.memory]
  refine hmem' x fun s => ?_
  rw [h.size_upper]
  exact hx.resolve_left (by simp [hmemory]) s

theorem exits (h : m.Ready .bye place w) (hcode : code.Consists instructions) (hip : m.ip = code.address p)
    (hblock : Placed instructions p (Primitive.bye.recipe.code r p place)) :
    ∃ n m', m.run kernel code n = .exited 0 m' ∧ m'.output = w.output := by
  have hroom : w.data.length ≤ (h.laid.process kernel hcode).room .data := by
    show _ ≤ Primitive.bye.spare place .data + (w.status place).size .data
    cases place <;> simp only [Primitive.spare, Primitive.reserve, World.status, Status.size] <;> omega
  exact Process.ends_spilling (P := h.laid.process kernel hcode) hblock hroom m _ (h.represents.stands_view h.laid hip)
    h.represents.matches_view

end Ready

/-! ### Words for memory -/

theorem Ready.becomes_of_dropped (h : m.Ready word place w) {place' : CacheState} (dropped : Stack → List Cell)
    (hcells : ∀ s, (w.status place).inMemory s = dropped s ++ (w'.status place').inMemory s)
    (hreg : ∀ s, m'.reg s.pointer = m.reg s.pointer + BitVec.ofNat 64 (8 * (dropped s).length))
    (htop : place' = .cached → w'.data.head? = some (m'.reg rax)) (hmem : m'.mem = w'.mem)
    (houtput : m'.output = w'.output) : m.Becomes m' word place place' w w' := by
  have hsize : ∀ s, (w.status place).size s = (dropped s).length + (w'.status place').size s := by
    intro s
    rw [← Status.length_inMemory, hcells, List.length_append, Status.length_inMemory]
  have hpointer : ∀ s, (m'.reg s.pointer).toNat = (m.reg s.pointer).toNat + 8 * (dropped s).length := by
    intro s
    have hend := h.laid.cells_lt s
    rw [hsize] at hend
    rw [hreg, pointer_add, BitVec.toNat_ofNat, Nat.mod_eq_of_lt (by omega)]
  refine ⟨fun hkept => ⟨htop, fun s i a hi => ?_, houtput⟩, fun s => ?_, fun x _ => by rw [hmem], houtput⟩
  · have hlt := (List.getElem?_eq_some_iff.mp hi).1
    rw [Status.length_inMemory] at hlt
    have hend := h.laid.cells_lt s
    rw [hsize] at hend
    have hcell : m.mem.cell (m.reg s.pointer + BitVec.ofNat 64 (8 * ((dropped s).length + i))) = a := by
      refine h.represents.stored s _ a ?_
      rw [hcells, List.getElem?_append_right (Nat.le_add_right _ _), Nat.add_sub_cancel_left, hi]
    have haddress : (m'.reg s.pointer).toNat + 8 * i = (m.reg s.pointer).toNat + 8 * ((dropped s).length + i) := by
      rw [hpointer]
      omega
    rw [← hcell, pointer_add, pointer_add, ← haddress]
    refine Memory.cell_congr fun j hj => ?_
    rw [hmem, h.memory]
    refine hkept s _ ?_
    rw [BitVec.toNat_ofNat, Nat.mod_eq_of_lt (by rw [hpointer]; omega)]
    exact ⟨by omega, by omega⟩
  · rw [hpointer, hsize]
    omega

theorem addressOf_at (m : Machine) (r : Register) : m.addressOf (.at r) = m.reg r :=
  BitVec.add_zero _

theorem setCellAt_at (m : Machine) (r : Register) (value : Cell) :
    m.setCellAt (.at r) value = { m with mem := m.mem.setCell (m.reg r) value } := by
  rw [setCellAt, addressOf_at]

/-- The top cell as far as it is in memory. -/
def topInMemory (place : CacheState) (a : Cell) : List Cell :=
  match place with
  | .cached => []
  | .spilled => [a]

variable {a b : Cell} {data rest ret : List Cell} {output : List UInt8} {i : Instruction}

theorem inMemory_cons : (Status.mk place (a :: data) ret output).inMemory .data = topInMemory place a ++ data := by
  cases place <;> rfl

theorem Represents.cell_below (h : m.Represents ⟨place, a :: b :: data, ret, output⟩) :
    m.mem.cell (m.reg rbx + BitVec.ofNat 64 (8 * (topInMemory place a).length)) = b := by
  refine h.stored .data _ b ?_
  rw [inMemory_cons, List.getElem?_append_right (Nat.le_refl _), Nat.sub_self]
  rfl

theorem Represents.performs_filling (kernel : Kernel) (h : m.Represents ⟨place, a :: data, ret, output⟩)
    (hcode : code.Consists instructions) (hip : m.ip = code.address p) (hblock : Placed instructions p place.filling) :
    ∃ m', Performs kernel code m [] m' ∧ m'.ip = code.address (p + codeSize place.filling) ∧ m'.reg rax = a ∧
      m'.reg rbx = m.reg rbx + BitVec.ofNat 64 (8 * (topInMemory place a).length) ∧ m'.reg rsp = m.reg rsp ∧
      m'.mem = m.mem ∧ m'.output = m.output := by
  cases place with
  | cached =>
    have htop : a = m.reg rax := Option.some.inj (h.top rfl)
    exact ⟨m, .refl m, hip, htop.symm, (BitVec.add_zero _).symm, rfl, rfl, rfl⟩
  | spilled =>
    have htop : m.mem.cell (m.reg rbx + 0#64) = a := h.stored .data 0 a rfl
    obtain ⟨m', hm', hrax, hrbx, hrsp, hmem, houtput⟩ :
        ∃ m', m.perform kernel code p popTop = some m' ∧ m'.reg rax = m.mem.cell (m.reg rbx + 0#64) ∧
          m'.reg rbx = m.reg rbx + 8 ∧ m'.reg rsp = m.reg rsp ∧ m'.mem = m.mem ∧ m'.output = m.output :=
      ⟨_, rfl, rfl, rfl, rfl, rfl, rfl⟩
    obtain ⟨hperforms, hend⟩ := Performs.block hcode hip hblock (by decide) hm'
    exact ⟨m', hperforms, hend, hrax.trans htop, hrbx, hrsp, hmem, houtput⟩

theorem Ready.becomes_of_reading (h : m.Ready word place w) (hcode : code.Consists instructions)
    (hip : m.ip = code.address p) (hblock : Placed instructions p (place.filling ++ [i])) (hplain : i.isPlain)
    {f : Memory → Cell → Cell} (hi : ∀ m, execute kernel m i = .running (m.setReg rax (f m.mem (m.reg rax))))
    (hw : w.data = a :: rest) :
    ∃ m', Reaches kernel code m m' ∧ m'.ip = code.address (p + codeSize (place.filling ++ [i])) ∧
      m.Becomes m' word place .cached w { w with data := f w.mem a :: rest } := by
  have hrepresents := h.represents
  rw [World.status, hw] at hrepresents
  obtain ⟨m₁, hm₁, hip₁, hrax, hrbx, hrsp, hmem, houtput⟩ :=
    hrepresents.performs_filling kernel hcode hip hblock.left
  have hread : m₁.perform kernel code (p + codeSize place.filling) [i] =
      some ((m₁.jump (code.address (p + codeSize place.filling + i.size))).setReg rax (f m₁.mem (m₁.reg rax))) := by
    rw [perform, hi]
    rfl
  obtain ⟨hperforms, hip'⟩ := Performs.block hcode hip₁ hblock.right (by rw [List.all_cons, hplain]; rfl) hread
  refine ⟨_, (hm₁.trans hperforms).reaches, ?_, ?_⟩
  · rw [hip', codeSize_append, Nat.add_assoc]
  · refine h.becomes_of_dropped (fun | .data => topInMemory place a | .ret => []) ?_ ?_ ?_ ?_ ?_
    · intro s
      cases s with
      | ret => rfl
      | data =>
        rw [World.status, hw, inMemory_cons]
        rfl
    · intro s
      cases s with
      | ret => exact hrsp.trans (BitVec.add_zero _).symm
      | data => exact hrbx
    · intro _
      show some _ = some (f m₁.mem (m₁.reg rax))
      rw [hmem, hrax, h.memory]
    · exact hmem.trans h.memory
    · exact houtput.trans hrepresents.output

/-- An instruction that stores the cell in `rcx` at the address in `rax`, between a load of that cell and its drop. -/
theorem performs_storing (hcode : code.Consists instructions) (hip : m.ip = code.address p)
    (hblock : Placed instructions p [.load rcx (.at rbx), i, ForthElf.dropCell]) (hplain : i.isPlain)
    {f : Memory → Cell → Cell → Memory}
    (hi : ∀ m, ∃ flags, execute kernel m i = .running { m with flags, mem := f m.mem (m.reg rax) (m.reg rcx) }) :
    ∃ m', Performs kernel code m [] m' ∧
      m'.ip = code.address (p + codeSize [.load rcx (.at rbx), i, ForthElf.dropCell]) ∧ m'.reg rbx = m.reg rbx + 8 ∧
      m'.reg rsp = m.reg rsp ∧ m'.mem = f m.mem (m.reg rax) (m.mem.cell (m.reg rbx)) ∧ m'.output = m.output := by
  let q := p + (Instruction.load rcx (.at rbx)).size
  let loaded := (m.jump (code.address q)).setReg rcx (m.mem.cell (m.reg rbx))
  obtain ⟨flags, hstore⟩ := hi (loaded.jump (code.address (q + i.size)))
  let stored := { loaded.jump (code.address (q + i.size)) with
    flags, mem := f m.mem (m.reg rax) (m.mem.cell (m.reg rbx)) }
  obtain ⟨m', hm', hrbx, hrsp, hmem, houtput⟩ :
      ∃ m', stored.perform kernel code (q + i.size) [ForthElf.dropCell] = some m' ∧ m'.reg rbx = m.reg rbx + 8 ∧
        m'.reg rsp = m.reg rsp ∧ m'.mem = stored.mem ∧ m'.output = m.output :=
    ⟨_, rfl, rfl, rfl, rfl, rfl⟩
  have hperform : m.perform kernel code p [.load rcx (.at rbx), i, ForthElf.dropCell] = some m' := by
    rw [perform, execute, cellAt, addressOf_at]
    show loaded.perform kernel code q [i, ForthElf.dropCell] = _
    rw [perform, hstore]
    exact hm'
  obtain ⟨hperforms, hip'⟩ := Performs.block hcode hip hblock (by simp [hplain]; decide) hperform
  exact ⟨m', hperforms, hip', hrbx, hrsp, hmem, houtput⟩

theorem Ready.becomes_of_storing (h : m.Ready word place w) (hcode : code.Consists instructions)
    (hip : m.ip = code.address p)
    (hblock : Placed instructions p (place.filling ++ [.load rcx (.at rbx), i, ForthElf.dropCell])) (hplain : i.isPlain)
    {f : Memory → Cell → Cell → Memory}
    (hi : ∀ m, ∃ flags, execute kernel m i = .running { m with flags, mem := f m.mem (m.reg rax) (m.reg rcx) })
    (hw : w.data = a :: b :: rest) :
    ∃ m', Reaches kernel code m m' ∧
      m'.ip = code.address (p + codeSize (place.filling ++ [.load rcx (.at rbx), i, ForthElf.dropCell])) ∧
      m.Becomes m' word place .spilled w { w with data := rest, mem := f w.mem a b } := by
  have hrepresents := h.represents
  rw [World.status, hw] at hrepresents
  obtain ⟨m₁, hm₁, hip₁, hrax, hrbx, hrsp, hmem, houtput⟩ :=
    hrepresents.performs_filling kernel hcode hip hblock.left
  obtain ⟨m', hm', hip', hrbx', hrsp', hmem', houtput'⟩ := performs_storing hcode hip₁ hblock.right hplain hi
  refine ⟨m', (hm₁.trans hm').reaches, ?_, ?_⟩
  · rw [hip', codeSize_append, Nat.add_assoc]
  · refine h.becomes_of_dropped (fun | .data => topInMemory place a ++ [b] | .ret => []) ?_ ?_ nofun ?_ ?_
    · intro s
      cases s with
      | ret => rfl
      | data =>
        rw [World.status, hw, inMemory_cons]
        simp [World.status, Status.inMemory]
    · intro s
      cases s with
      | ret => exact (hrsp'.trans hrsp).trans (BitVec.add_zero _).symm
      | data =>
        show m'.reg rbx = m.reg rbx + _
        rw [hrbx', hrbx, BitVec.add_assoc]
        cases place <;> rfl
    · rw [hmem', hrax, hrbx, hmem, hrepresents.cell_below, h.memory]
    · exact (houtput'.trans houtput).trans hrepresents.output

theorem Ready.faults (h : m.Ready word place w) (hcode : code.Consists instructions) (hip : m.ip = code.address p)
    (hp : word = .div ∨ word = .mod) (hblock : Placed instructions p (word.recipe.code r p place))
    (hw : w.data = b :: a :: rest) (hdivides : Cell.divides b a = false) : ∃ n, m.run kernel code n = .fault := by
  obtain ⟨back, hblock⟩ : ∃ back, Placed instructions p (place.filling ++
      (Recipe.popOperands ++ [Instruction.cqo] ++ [Instruction.unary .idiv rcx] ++ back)) := by
    rcases hp with rfl | rfl
    · exact ⟨[], hblock⟩
    · exact ⟨[.movRegReg rax rdx], hblock⟩
  have hrepresents := h.represents
  rw [World.status, hw] at hrepresents
  obtain ⟨m₁, hm₁, hip₁, hrax, hrbx, -, hmem, -⟩ := hrepresents.performs_filling kernel hcode hip hblock.left
  obtain ⟨m₂, hm₂, hrax₂, hrcx₂, hrdx₂⟩ :
      ∃ m₂, m₁.perform kernel code (p + codeSize place.filling) (Recipe.popOperands ++ [Instruction.cqo]) = some m₂ ∧
        m₂.reg rax = m₁.mem.cell (m₁.reg rbx + 0#64) ∧ m₂.reg rcx = m₁.reg rax ∧
        m₂.reg rdx = if (m₁.mem.cell (m₁.reg rbx + 0#64)).msb then BitVec.allOnes 64 else 0 :=
    ⟨_, rfl, rfl, rfl, rfl⟩
  rw [BitVec.add_zero, hrbx, hmem, hrepresents.cell_below] at hrax₂ hrdx₂
  obtain ⟨hperforms, hip₂⟩ := Performs.block hcode hip₁ hblock.right.left.left (by decide) hm₂
  obtain ⟨n, hn⟩ := (hm₁.trans hperforms).reaches
  refine ⟨n + 1, ?_⟩
  have hstep : m₂.step kernel code = .fault := by
    rw [step, hip₂, LoadedCode.fetch?_address hcode hblock.right.left.right]
    show divideSigned _ (m₂.reg rcx) = .fault
    rw [hrcx₂, hrax]
    exact divideSigned_eq_fault hrax₂ hrdx₂ hdivides
  rw [run_add hn, run, hstep]

theorem Ready.becomes_of_memory (h : m.Ready word place w) (hmemory : word.usesMemory)
    (hcode : code.Consists instructions)
    (hip : m.ip = code.address p) (hblock : Placed instructions p (word.recipe.code r p place))
    (he : word.effect w = .goesOn w') :
    ∃ m', Reaches kernel code m m' ∧ m'.ip = code.address (p + codeSize (word.recipe.code r p place)) ∧
      m.Becomes m' word place word.recipe.exitState w w' := by
  cases word
  case fetch =>
    obtain ⟨a, rest, hw, rfl⟩ := World.exists_of_onTop he
    refine h.becomes_of_reading hcode hip hblock rfl (fun m => ?_) hw
    rw [execute, cellAt, addressOf_at]
  case fetchByte =>
    obtain ⟨a, rest, hw, rfl⟩ := World.exists_of_onTop he
    refine h.becomes_of_reading (f := fun mem address => BitVec.ofNat 64 (mem address).toNat) hcode hip hblock rfl
      (fun m => ?_) hw
    rw [execute, addressOf_at]
  case store =>
    obtain ⟨a, b, rest, hw, rfl⟩ := World.exists_of_storing he
    refine h.becomes_of_storing hcode hip hblock rfl (fun m => ⟨m.flags, ?_⟩) hw
    rw [execute, setCellAt_at]
  case storeByte =>
    rw [Primitive.effect] at he
    obtain ⟨a, b, rest, hw, rfl⟩ := World.exists_of_storing he
    refine h.becomes_of_storing (f := fun mem address value => mem.set address value.lowByte) hcode hip hblock rfl
      (fun m => ⟨m.flags, ?_⟩) hw
    rw [execute, addressOf_at]
    rfl
  case plusStore =>
    rw [Primitive.effect] at he
    obtain ⟨a, b, rest, hw, rfl⟩ := World.exists_of_storing he
    refine h.becomes_of_storing (f := fun mem address value => mem.setCell address (mem.cell address + value)) hcode hip
      hblock rfl (fun m => ?_) hw
    simp only [execute, cellAt, setCellAt_at, addressOf_at]
    exact ⟨_, rfl⟩
  all_goals cases hmemory

end Machine

/-- What the machine does with the code of a word, which ends at `q` with the top cell in the place `place'`: it becomes
what the word makes of it, ends, or faults if the word has no meaning. -/
def Machine.Obeys (m : Machine) (kernel : Kernel) (code : LoadedCode) (word : Primitive) (place place' : CacheState)
    (q : Nat) (w : World) : Prop :=
  match word.effect w with
  | .goesOn w' => ∃ m', Reaches kernel code m m' ∧ m'.ip = code.address q ∧ m.Becomes m' word place place' w w'
  | .halts => ∃ n m', m.run kernel code n = .exited 0 m' ∧ m'.output = w.output
  | .undefined => ∃ n, m.run kernel code n = .fault

section Code

variable {m : Machine} {word : Primitive} {place : CacheState} {w w' : World} {kernel : Kernel} {code : LoadedCode}
  {instructions : List Instruction} {p r : Nat}

theorem Machine.Ready.obeys (h : m.Ready word place w) (hcode : code.Consists instructions)
    (hip : m.ip = code.address p) (hroutine : word = .dot → Placed instructions r printNumber)
    (hblock : Placed instructions p (word.recipe.code r p place)) :
    m.Obeys kernel code word place word.recipe.exitState (p + codeSize (word.recipe.code r p place)) w := by
  unfold Machine.Obeys
  split
  · next w' he =>
    cases hmemory : word.usesMemory with
    | false => exact h.becomes_of_stacks hmemory hcode hip hroutine hblock he
    | true => exact h.becomes_of_memory hmemory hcode hip hblock he
  · next he =>
    obtain rfl := Primitive.eq_bye_of_halts he
    exact h.exits hcode hip hblock
  · next he =>
    obtain ⟨hp, b, a, rest, hw, hdivides⟩ := Primitive.exists_of_undefined h.operands h.returnOperands he
    exact h.faults hcode hip hp hblock hw hdivides

/-- Within 2 GiB every word can be emitted. -/
theorem Emitter.exists_primitive (word : Primitive) {e : Emitter}
    (hreach : word = .dot → r < 2 ^ 31 ∧ e.offset + 12 ≤ 2 ^ 31) : ∃ e', Emitter.primitive r word e = .ok () e' := by
  by_cases hdot : word = .dot
  · obtain ⟨hr, hoffset⟩ := hreach hdot
    subst hdot
    refine exists_branchTo (e := e.spill) ?_ hr
    have hspill : codeSize e.cache.state.spilling ≤ 7 := by cases e.cache.state <;> decide
    rw [Emitter.offset_spill]
    show _ + 1 + 4 ≤ _
    omega
  · cases word <;> first | exact ⟨_, rfl⟩ | exact absurd rfl hdot

end Code

/-- **The code of a word has the effect of the word**, whatever the place of the top cell before it and whatever code it
is part of; it leaves the top cell in the place that the emitter has noted. -/
theorem words_exact (word : Primitive) {r : Nat} {e : Emitter}
    (hreach : word = .dot → r < 2 ^ 31 ∧ e.offset + 12 ≤ 2 ^ 31) :
    ∃ e', Emitter.primitive r word e = .ok () e' ∧
      e'.code = e.code.append (assemble (word.recipe.code r e.offset e.cache.state)) ∧
      ∀ (kernel : Kernel) (code : LoadedCode) (instructions : List Instruction) (m : Machine) (w : World),
        code.Consists instructions → Placed instructions e.offset (word.recipe.code r e.offset e.cache.state) →
        (word = .dot → Placed instructions r printNumber) → m.ip = code.address e.offset →
        m.Ready word e.cache.state w → m.Obeys kernel code word e.cache.state e'.cache.state e'.offset w := by
  obtain ⟨e', he⟩ := Emitter.exists_primitive word hreach
  obtain ⟨hcode, hstate⟩ := Emitter.follow_ok he
  refine ⟨e', he, hcode, ?_⟩
  intro kernel code instructions m w hconsists hblock hroutine hip hready
  rw [hstate, Emitter.offset_of_code hcode]
  exact hready.obeys hconsists hip hroutine hblock

/-- A quotient is cut towards zero. -/
theorem words_exact_div : ∃ (code : LoadedCode) (m : Machine) (w : World),
    m.Ready .div .spilled w ∧ w.data = [-2, 7] ∧ m.ip = code.base ∧
    ∃ e', Emitter.primitive 0 .div {} = .ok () e' ∧ e'.cache.state = .cached ∧ code.bytes = e'.code.bytes.toList ∧
      ∀ kernel, ∃ m', Reaches kernel code m m' ∧ m'.ip = code.address e'.offset ∧ m'.reg rax = -3 := by
  let block := Primitive.div.recipe.code 0 0 .spilled
  let code : LoadedCode := ⟨0x4000B0, assemble block⟩
  let mem : Memory := Memory.setCell (Memory.setCell (fun _ => 0) 0x500008 7) 0x500000 (-2)
  let m : Machine := ⟨0x4000B0, fun r => if r = rsp then 0x7fffffffe000 else 0x500000, {}, mem, []⟩
  let w : World := ⟨[-2, 7], [], mem, []⟩
  have hready : m.Ready .div .spilled w := by
    refine ⟨⟨nofun, fun s i a hi => ?_, rfl⟩, rfl, by decide, by decide, ?_, ?_, ?_⟩
    · cases s with
      | ret => cases hi
      | data =>
        rcases i with _ | _ | i
        · cases hi
          decide
        · cases hi
          decide
        · cases hi
    · intro s
      cases s <;> decide
    · intro s
      cases s <;> decide
    · rintro x ⟨-, hdata⟩ ⟨hret, -⟩
      have hlt : x < 0x500010 := hdata
      have hle : 0x7fffffffe000 ≤ x := hret
      omega
  obtain ⟨e', he, hcode, hobeys⟩ := words_exact .div (r := 0) (e := {}) nofun
  have hstate : e'.cache.state = .cached := (Emitter.follow_ok he).2
  refine ⟨code, m, w, hready, rfl, rfl, e', he, hstate, ?_, fun kernel => ?_⟩
  · rw [hcode]
    exact (List.nil_append _).symm
  · obtain ⟨m', hm', hip', hbecomes⟩ : ∃ m', Reaches kernel code m m' ∧ m'.ip = code.address e'.offset ∧
        m.Becomes m' .div .spilled e'.cache.state w { w with data := [BitVec.sdiv 7 (-2)] } :=
      hobeys kernel code block m w ⟨rfl, by decide, by decide⟩ ⟨[], [], rfl, rfl⟩ nofun rfl hready
    have htop : some (BitVec.sdiv 7 (-2)) = some (m'.reg rax) :=
      (hbecomes.represents fun _ _ _ => rfl).top hstate
    refine ⟨m', hm', hip', (Option.some.inj htop).symm.trans (by decide)⟩

end ForthElf
