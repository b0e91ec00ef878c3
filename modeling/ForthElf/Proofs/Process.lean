import ForthElf.Proofs.Arithmetic
import ForthElf.Proofs.Emission
import ForthElf.Proofs.Execution

/-!
# Processes

* `Process` — loaded code with the areas of its stacks;
* `Process.Leads p Q p' R` — whenever the process is at offset `p` with a view in `Q`, it gets to offset `p'` with a
  view in `R`;
* `Process.Asks requests p Q p' R` — it does so with these system calls on the way;
* `Process.Keeps p Q p' R` — it does so without a change to the memory apart from the stacks;
* `Status` — what a program sees of a process: the two stacks, the place of the top cell, and the output;
* `Process.leads_spilling`, `Process.leads_filling` — moving the top cell changes nothing else.
-/

namespace ForthElf

open Register

/-- Loaded code with the areas of its stacks. -/
structure Process where
  kernel : Kernel
  code : LoadedCode
  areas : Areas
  instructions : List Instruction
  consists : code.Consists instructions

namespace Process

variable (P : Process)

/-- The process gets from offset `p` with a view in `Q` to offset `p'` with a view in `R`. -/
def Leads (p : Nat) (Q : View → Prop) (p' : Nat) (R : View → Prop) : Prop :=
  ∀ m v, Stands P.code P.areas v p m → Q v →
    ∃ m' v', Reaches P.kernel P.code m m' ∧ Stands P.code P.areas v' p' m' ∧ R v'

/-- The process gets there and asks the kernel for `requests` on the way. -/
def Asks (requests : List KernelRequest) (p : Nat) (Q : View → Prop) (p' : Nat) (R : View → Prop) : Prop :=
  ∀ m v, Stands P.code P.areas v p m → Q v →
    ∃ m' v', Performs P.kernel P.code m requests m' ∧ Stands P.code P.areas v' p' m' ∧ R v'

/-- The process gets there and keeps the memory apart from the stacks as it is. -/
def Keeps (p : Nat) (Q : View → Prop) (p' : Nat) (R : View → Prop) : Prop :=
  ∀ mem, P.Leads p (fun v => Q v ∧ v.mem = mem) p' (fun v => R v ∧ v.mem = mem)

def room (s : Stack) : Nat :=
  (P.areas.area s).cells

/-- A block finds room for what it pushes on the stacks of the views in `Q`. -/
def Fits (Q : View → Prop) (block : List Instruction) : Prop :=
  ∀ v, Q v → ∀ s, pushes s block ≠ 0 → (v.cells s).length + pushes s block ≤ P.room s

variable {P} {p p' p'' target : Nat} {Q R S : View → Prop} {block : List Instruction} {d : BitVec 32}
  {requests : List KernelRequest}

theorem Leads.trans (h : P.Leads p Q p' R) (h' : P.Leads p' R p'' S) : P.Leads p Q p'' S := by
  intro m v hm hv
  obtain ⟨m₁, v₁, hr₁, hm₁, hv₁⟩ := h m v hm hv
  obtain ⟨m₂, v₂, hr₂, hm₂, hv₂⟩ := h' m₁ v₁ hm₁ hv₁
  exact ⟨m₂, v₂, hr₁.trans hr₂, hm₂, hv₂⟩

/-! ### With what the kernel is asked -/

theorem Asks.refl : P.Asks [] p Q p Q :=
  fun m v h hv => ⟨m, v, .refl m, h, hv⟩

theorem Asks.trans (h : P.Asks [] p Q p' R) (h' : P.Asks requests p' R p'' S) : P.Asks requests p Q p'' S := by
  intro m v hm hv
  obtain ⟨m₁, v₁, hr₁, hm₁, hv₁⟩ := h m v hm hv
  obtain ⟨m₂, v₂, hr₂, hm₂, hv₂⟩ := h' m₁ v₁ hm₁ hv₁
  exact ⟨m₂, v₂, hr₁.trans hr₂, hm₂, hv₂⟩

/-- What is known of a view may be said in other words. -/
theorem Asks.weaken (h : P.Asks requests p Q p' R) (hR : ∀ v, R v → S v) : P.Asks requests p Q p' S := by
  intro m v hm hv
  obtain ⟨m', v', hr, hm', hv'⟩ := h m v hm hv
  exact ⟨m', v', hr, hm', hR v' hv'⟩

theorem Asks.leads (h : P.Asks requests p Q p' R) : P.Leads p Q p' R := by
  intro m v hm hv
  obtain ⟨m', v', hr, hm', hv'⟩ := h m v hm hv
  exact ⟨m', v', hr.reaches, hm', hv'⟩

/-- A block that does nothing but change the view. -/
theorem asks_run (hblock : Placed P.instructions p block) (hfits : P.Fits Q block)
    (hv : ∀ v, Q v → ∃ v', v.run P.kernel block = some v' ∧ R v') :
    P.Asks [] p Q (p + codeSize block) R := by
  intro m v hm hQ
  obtain ⟨v', hrun, hR⟩ := hv v hQ
  have hroom : ∀ s, (v.cells s).length + pushes s block ≤ (P.areas.area s).cells := by
    intro s
    by_cases hzero : pushes s block = 0
    · rw [hzero]
      exact (hm.looks.holds s).room
    · exact hfits v hQ s hzero
  obtain ⟨m', hr, hm'⟩ := hm.run P.consists hblock hrun hroom
  exact ⟨m', v', hr, hm', hR⟩

theorem asks_jumpIf {condition : Condition} {C : Prop} [Decidable C]
    (hi : Placed P.instructions p [.branch (.jumpIf condition) d])
    (hd : (p + (Branch.jumpIf condition).size : Int) + d.toInt = target)
    (hc : ∀ v, Q v → condition.holds v.flags = decide C) :
    P.Asks [] p Q (if C then target else p + (Branch.jumpIf condition).size) Q := by
  intro m v hm hQ
  obtain ⟨m', hr, hm'⟩ := hm.jumpIf P.consists hi hd
  rw [hc v hQ] at hm'
  simp only [decide_eq_true_eq] at hm'
  exact ⟨m', v, hr, hm', hQ⟩

theorem asks_runJumpIf {condition : Condition} {C : Prop} [Decidable C]
    (hblock : Placed P.instructions p (block ++ [Instruction.branch (.jumpIf condition) d]))
    (hd : (p + codeSize block + (Branch.jumpIf condition).size : Int) + d.toInt = target) (hfits : P.Fits Q block)
    (hv : ∀ v, Q v → ∃ v', v.run P.kernel block = some v' ∧ condition.holds v'.flags = decide C ∧ R v') :
    P.Asks [] p Q (if C then target else p + codeSize block + (Branch.jumpIf condition).size) R := by
  refine (asks_run (R := fun v => condition.holds v.flags = decide C ∧ R v) hblock.left hfits hv).trans ?_
  refine (asks_jumpIf hblock.right ?_ fun v hv => hv.1).weaken fun v hv => hv.2
  rwa [Int.natCast_add]

/-! ### With memory as it is -/

theorem Keeps.refl : P.Keeps p Q p Q :=
  fun _ => Asks.refl.leads

theorem Keeps.trans (h : P.Keeps p Q p' R) (h' : P.Keeps p' R p'' S) : P.Keeps p Q p'' S :=
  fun mem => (h mem).trans (h' mem)

theorem Keeps.weaken (h : P.Keeps p Q p' R) (hR : ∀ v, R v → S v) : P.Keeps p Q p' S := by
  intro mem m v hm hv
  obtain ⟨m', v', hr, hm', hv', hmem⟩ := h mem m v hm hv
  exact ⟨m', v', hr, hm', hR v' hv', hmem⟩

theorem Fits.keeping (h : P.Fits Q block) (mem : Memory) : P.Fits (fun v => Q v ∧ v.mem = mem) block :=
  fun v hv => h v hv.1

theorem keeps_run (hblock : Placed P.instructions p block) (hfits : P.Fits Q block)
    (hv : ∀ v, Q v → ∃ v', v.run P.kernel block = some v' ∧ R v') : P.Keeps p Q (p + codeSize block) R := by
  intro mem
  refine (asks_run hblock (hfits.keeping mem) ?_).leads
  rintro v ⟨hQ, rfl⟩
  obtain ⟨v', hrun, hR⟩ := hv v hQ
  exact ⟨v', hrun, hR, View.mem_of_run hrun⟩

theorem keeps_jump (hi : Placed P.instructions p [.branch .jump d])
    (hd : (p + Branch.jump.size : Int) + d.toInt = target) : P.Keeps p Q target Q := by
  intro mem m v hm hQ
  obtain ⟨m', hr, hm'⟩ := hm.jump P.consists hi hd
  exact ⟨m', v, hr.reaches, hm', hQ⟩

theorem keeps_runJumpIf {condition : Condition} {C : Prop} [Decidable C]
    (hblock : Placed P.instructions p (block ++ [Instruction.branch (.jumpIf condition) d]))
    (hd : (p + codeSize block + (Branch.jumpIf condition).size : Int) + d.toInt = target) (hfits : P.Fits Q block)
    (hv : ∀ v, Q v → ∃ v', v.run P.kernel block = some v' ∧ condition.holds v'.flags = decide C ∧ R v') :
    P.Keeps p Q (if C then target else p + codeSize block + (Branch.jumpIf condition).size) R := by
  intro mem
  refine (asks_runJumpIf hblock hd (hfits.keeping mem) ?_).leads
  rintro v ⟨hQ, rfl⟩
  obtain ⟨v', hrun, hholds, hR⟩ := hv v hQ
  exact ⟨v', hrun, hholds, hR, View.mem_of_run hrun⟩

end Process

theorem add_codeSize_append (p : Nat) (a b : List Instruction) :
    p + codeSize (a ++ b) = p + codeSize a + codeSize b := by
  rw [codeSize_append, Nat.add_assoc]

/-! ### What a program sees -/

/-- The two stacks, their tops first, the place of the top cell of the data stack, and the output. -/
structure Status where
  place : CacheState
  data : List Cell
  ret : List Cell
  output : List UInt8

/-- The data stack of a view with its top cell in the given place. -/
def View.stackIn (v : View) : CacheState → List (Option Cell)
  | .cached => some (v.reg rax) :: v.cells .data
  | .spilled => v.cells .data

namespace Status

/-- A view looks like this to a program. -/
structure Matches (st : Status) (v : View) : Prop where
  data : v.stackIn st.place = st.data.map some
  ret : v.cells .ret = st.ret.map some
  output : v.output = st.output

def size (st : Status) : Stack → Nat
  | .data => match st.place with
    | .cached => st.data.length - 1
    | .spilled => st.data.length
  | .ret => st.ret.length

variable {st : Status} {v : View}

theorem Matches.length_cells (h : st.Matches v) (s : Stack) : (v.cells s).length = st.size s := by
  cases s with
  | ret => rw [h.ret, List.length_map, size]
  | data =>
    have hlength := congrArg List.length h.data
    rw [List.length_map] at hlength
    unfold size
    cases hplace : st.place <;> rw [hplace] at hlength
    · dsimp only
      rw [← hlength]
      rfl
    · exact hlength

end Status

def Stack.pair (data ret : List (Option Cell)) : Stack → List (Option Cell)
  | .data => data
  | .ret => ret

namespace Status.Matches

variable {v : View} {data ret : List Cell} {output : List UInt8}

theorem cells_eq (v : View) : v.cells = Stack.pair (v.cells .data) (v.cells .ret) := by
  funext s
  cases s <;> rfl

theorem exists_of_spilled (h : Matches ⟨.spilled, data, ret, output⟩ v) :
    ∃ reg flags mem, v = ⟨reg, flags, Stack.pair (data.map some) (ret.map some), mem, output⟩ := by
  obtain ⟨hdata, hret, rfl⟩ := h
  refine ⟨v.reg, v.flags, v.mem, ?_⟩
  rw [← hdata, ← hret]
  exact congrArg (fun cells => View.mk v.reg v.flags cells v.mem v.output) (cells_eq v)

theorem exists_of_cached (h : Matches ⟨.cached, data, ret, output⟩ v) :
    ∃ reg flags mem rest, v = ⟨reg, flags, Stack.pair (rest.map some) (ret.map some), mem, output⟩ ∧
      data = reg rax :: rest := by
  obtain ⟨hdata, hret, rfl⟩ := h
  cases data with
  | nil => cases hdata
  | cons a rest =>
    obtain ⟨htop, hrest⟩ := List.cons.inj hdata
    refine ⟨v.reg, v.flags, v.mem, rest, ?_, by rw [Option.some.inj htop]⟩
    rw [← hrest, ← hret]
    exact congrArg (fun cells => View.mk v.reg v.flags cells v.mem v.output) (cells_eq v)

end Status.Matches

namespace Process

variable {P : Process} {p target : Nat} {st st' : Status} {block : List Instruction} {d : BitVec 32}

/-- The process gets from one status to another. -/
def Takes (P : Process) (p : Nat) (st : Status) (p' : Nat) (st' : Status) : Prop :=
  P.Keeps p st.Matches p' st'.Matches

/-- A block finds room for what it pushes. -/
def HasRoom (P : Process) (st : Status) (block : List Instruction) : Prop :=
  ∀ s, pushes s block ≠ 0 → st.size s + pushes s block ≤ P.room s

theorem HasRoom.fits (h : P.HasRoom st block) : P.Fits st.Matches block := by
  intro v hv s hs
  rw [hv.length_cells s]
  exact h s hs

theorem hasRoom_of_pushes_eq_zero (hdata : pushes .data block = 0) (hret : pushes .ret block = 0) :
    P.HasRoom st block := by
  intro s hs
  cases s with
  | data => exact absurd hdata hs
  | ret => exact absurd hret hs

/-- A block that takes each view of one status to a view of another. -/
theorem takes_run (hblock : Placed P.instructions p block) (hroom : P.HasRoom st block)
    (hv : ∀ v, st.Matches v → ∃ v', v.run P.kernel block = some v' ∧ st'.Matches v') :
    P.Takes p st (p + codeSize block) st' :=
  keeps_run hblock hroom.fits hv

/-! ### Moving the top cell -/

variable {place : CacheState} {data ret : List Cell} {output : List UInt8}

theorem takes_spilling (hblock : Placed P.instructions p place.spilling) (hroom : data.length ≤ P.room .data) :
    P.Takes p ⟨place, data, ret, output⟩ (p + codeSize place.spilling) ⟨.spilled, data, ret, output⟩ := by
  cases place with
  | spilled => exact .refl
  | cached =>
    cases data with
    | nil =>
      intro mem m v _ hv
      obtain ⟨_, _, _, _, _, hdata⟩ := hv.1.exists_of_cached
      cases hdata
    | cons a rest =>
      refine takes_run hblock (fun s hs => ?_) fun v hv => ?_
      · cases s with
        | data => exact hroom
        | ret => exact absurd rfl hs
      · obtain ⟨reg, flags, mem, rest, rfl, hdata⟩ := hv.exists_of_cached
        cases hdata
        exact ⟨_, rfl, rfl, rfl, rfl⟩

theorem takes_filling {a : Cell} (hblock : Placed P.instructions p place.filling) :
    P.Takes p ⟨place, a :: data, ret, output⟩ (p + codeSize place.filling) ⟨.cached, a :: data, ret, output⟩ := by
  cases place with
  | cached => exact .refl
  | spilled =>
    refine takes_run hblock (hasRoom_of_pushes_eq_zero rfl rfl) fun v hv => ?_
    obtain ⟨reg, flags, mem, rfl⟩ := hv.exists_of_spilled
    exact ⟨_, rfl, rfl, rfl, rfl⟩

theorem takes_settling {wanted : CacheState} (hblock : Placed P.instructions p (place.settling wanted))
    (hroom : wanted = .spilled → data.length ≤ P.room .data) (hne : wanted = .cached → data ≠ []) :
    P.Takes p ⟨place, data, ret, output⟩ (p + codeSize (place.settling wanted)) ⟨wanted, data, ret, output⟩ := by
  cases wanted with
  | spilled => exact takes_spilling hblock (hroom rfl)
  | cached =>
    cases data with
    | nil => exact absurd rfl (hne rfl)
    | cons a rest => exact takes_filling hblock

/-! ### Branches -/

theorem takes_call (hi : Placed P.instructions p [.branch .call d])
    (hd : (p + Branch.call.size : Int) + d.toInt = target) (hroom : ret.length < P.room .ret) :
    P.Takes p ⟨place, data, ret, output⟩ target
      ⟨place, data, P.code.address (p + Branch.call.size) :: ret, output⟩ := by
  rintro mem m v hm ⟨hv, hmem⟩
  have hlength : (v.cells .ret).length < P.room .ret := by
    rw [hv.length_cells .ret]
    exact hroom
  obtain ⟨m', hr, hm'⟩ := hm.call P.consists hi hd hlength
  refine ⟨m', _, hr.reaches, hm', ⟨?_, ?_, hv.output⟩, hmem⟩
  · have hdata := hv.data
    cases place <;> exact hdata
  · exact congrArg (_ :: ·) hv.ret

theorem takes_ret (hi : Placed P.instructions p [.ret]) :
    P.Takes p ⟨place, data, P.code.address target :: ret, output⟩ target ⟨place, data, ret, output⟩ := by
  rintro mem m v hm ⟨hv, hmem⟩
  obtain ⟨m', hr, hm'⟩ := hm.ret P.consists hi hv.ret
  refine ⟨m', _, hr.reaches, hm', ⟨?_, rfl, hv.output⟩, hmem⟩
  have hdata := hv.data
  cases place <;> exact hdata

end Process

end ForthElf
