import ForthElf.Proofs.Constructs
import ForthElf.Proofs.Positions

/-!
# Compiled programs do what the interpreter does

* `Compilation.shown` — what a process looks like when the interpreter is in a configuration;
* `Compilation.Reached` — what holds of the configurations of a run, once the program is under way;
* `Compilation.Follows` — the process gets from one configuration to the next;
* `Compilation.follows_step` — every step of the interpreter is followed, by one lemma for each kind of item;
* `Compilation.ends_of_interpret` — hence every run;
* `Machine.Launches` — a machine that is about to start a program;
* `runs_as_interpreted` — **a compiled program writes what the interpreter writes and ends with status zero**.
-/

namespace ForthElf

open Register Compiler

namespace Compilation

/-! ### Configurations and processes -/

/-- The return stack of a process: the loops of the running definition, and for each caller the place where it goes on
and its loops. -/
def returnStack (c : Compilation) (code : LoadedCode) (config : Config) : List Cell :=
  config.loops.flatMap LoopFrame.cells ++
    config.callers.flatMap fun caller =>
      code.address (c.offset caller.back) :: caller.loops.flatMap LoopFrame.cells

/-- What a process looks like when the interpreter is in a configuration. -/
def shown (c : Compilation) (code : LoadedCode) (config : Config) (place : CacheState) : Status :=
  ⟨place, config.data, c.returnStack code config, config.output⟩

theorem length_flatMap_cells (loops : List LoopFrame) : (loops.flatMap LoopFrame.cells).length = 2 * loops.length := by
  induction loops with
  | nil => rfl
  | cons l loops ih =>
    rw [List.flatMap_cons, List.length_append, ih, LoopFrame.cells, List.length_cons]
    simp only [List.length_cons, List.length_nil]
    omega

theorem length_returnStack (c : Compilation) (code : LoadedCode) (config : Config) :
    (c.returnStack code config).length = config.returnCells := by
  rw [returnStack, List.length_append, length_flatMap_cells, List.length_flatMap, Config.returnCells]
  simp only [List.length_cons, length_flatMap_cells, Nat.add_comm]

/-- A definition can go on where it waits. -/
structure Resumable (c : Compilation) (caller : Caller) : Prop where
  le : caller.back ≤ c.items.length
  live : (c.state caller.back).starting = false
  place : (c.state caller.back).cache.state = .spilled
  loops : caller.loops.length = loopsAt c.items caller.back

/-- The running loops are those around the item at hand, and all callers can go on. -/
structure Suits (c : Compilation) (config : Config) : Prop where
  loops : config.loops.length = loopsAt c.items config.pos
  callers : ∀ caller ∈ config.callers, c.Resumable caller

/-- A configuration of a run that is under way. -/
structure Reached (c : Compilation) (config : Config) : Prop where
  le : config.pos ≤ c.items.length
  live : (c.state config.pos).starting = false
  suits : c.Suits config

/-- A process that runs a compiled program of structured words, with room for its stacks: one cell more than the data
stack takes, and what it takes to print a number. -/
structure Hosts (c : Compilation) (P : Process) (room : Room) : Prop where
  instructions : P.instructions = c.instructions
  structured : ∀ item ∈ c.items, item.isStructured
  bestEffort : c.options.bestEffort = false
  data : room.data < P.room .data
  ret : room.ret + 5 ≤ P.room .ret

/-- The process gets from a configuration to another one. -/
def Follows (c : Compilation) (P : Process) (config config' : Config) : Prop :=
  c.Reached config' ∧
    P.Takes (c.start config.pos) (c.shown P.code config (c.topPlace config.pos)) (c.offset config'.pos)
      (c.shown P.code config' (c.state config'.pos).cache.state)

variable {c : Compilation} {P : Process} {room : Room} {config config' : Config} {item : Item} {j : Nat}
  {keyword : Keyword} {token : Token} {index : Nat} {data : List Cell} {output : List UInt8}

theorem Hosts.placed (hhosts : c.Hosts P room) {p : Nat} {block : List Instruction}
    (h : Placed c.instructions p block) : Placed P.instructions p block := by
  rw [hhosts.instructions]
  exact h

theorem Hosts.length_data (hhosts : c.Hosts P room) (hfits : config.Fits room) : config.data.length < P.room .data :=
  Nat.lt_of_le_of_lt hfits.1 hhosts.data

theorem Hosts.length_data_le (hhosts : c.Hosts P room) (hfits : config.Fits room) :
    config.data.length ≤ P.room .data :=
  Nat.le_of_lt (hhosts.length_data hfits)

theorem Hosts.length_returnStack (hhosts : c.Hosts P room) (hfits : config.Fits room) :
    (c.returnStack P.code config).length + 5 ≤ P.room .ret := by
  have hret := hhosts.ret
  have hcells := hfits.2
  rw [Compilation.length_returnStack]
  omega

/-! ### Arriving -/

/-- Arriving behind a word of a construct. -/
theorem follows_landing (hland : c.Landing j config'.loops.length) (hpos : config'.pos = j + 1)
    (hcallers : ∀ caller ∈ config'.callers, c.Resumable caller)
    (htakes : P.Takes (c.start config.pos) (c.shown P.code config (c.topPlace config.pos)) (c.offset (j + 1))
      (c.shown P.code config' .spilled)) : c.Follows P config config' := by
  refine ⟨⟨?_, ?_, ?_, hcallers⟩, ?_⟩
  · rw [hpos]
    exact hland.lt
  · rw [hpos]
    exact hland.live
  · rw [hpos]
    exact hland.loops.symm
  · rw [hpos, hland.place]
    exact htakes

theorem depth_of_plain (h : item.role = .plain) : item.depth = 0 := by
  cases item with
  | keyword keyword token index => cases keyword <;> first | rfl | cases h
  | _ => rfl

theorem not_semicolon_of_plain (h : item.role = .plain) (token : Token) (index : Nat) :
    item ≠ .keyword .semicolon token index := by
  rintro rfl
  cases h

section Plain

variable (h : c.items[config.pos]? = some item) (hplain : item.role = .plain)
  (hready : (c.state config.pos).starting = false ∨ (c.state config.pos).startsCode item) (hsuits : c.Suits config)
include h hplain hready hsuits

theorem follows_plain
    (htakes : P.Takes (c.start config.pos) (c.shown P.code config (c.topPlace config.pos)) (c.offset (config.pos + 1))
      ⟨(c.state (config.pos + 1)).cache.state, data, c.returnStack P.code config, output⟩) :
    c.Follows P config { config.next with data := data, output := output } := by
  refine ⟨⟨(List.getElem?_eq_some_iff.mp h).1, ?_, ?_, hsuits.callers⟩, htakes⟩
  · exact starting_succ h (not_semicolon_of_plain hplain) hready
  · exact hsuits.loops.trans (loopsAt_of_depth h (depth_of_plain hplain)).symm

/-- Calling a definition. -/
theorem follows_call (hhosts : c.Hosts P room) (hfits : config.Fits room) {d : Nat} (hd : c.IsDefinition d)
    (hopens : ∀ kind, ¬c.Opens config.pos kind)
    (hcode : ((c.state config.pos).ready item).itemCode item =
      branching (c.start config.pos) (c.topPlace config.pos).spilling .call (c.offset (d + 1)))
    (hstate : (c.state (config.pos + 1)).cache.state = .spilled) : c.Follows P config (config.call d) := by
  have hback : c.Resumable ⟨config.pos + 1, config.loops⟩ :=
    ⟨(List.getElem?_eq_some_iff.mp h).1, starting_succ h (not_semicolon_of_plain hplain) hready, hstate,
      hsuits.loops.trans (loopsAt_of_depth h (depth_of_plain hplain)).symm⟩
  refine follows_landing (landing_of_isDefinition hd) rfl ?_ ?_
  · intro caller hcaller
    rcases List.mem_cons.mp hcaller with rfl | hcaller
    · exact hback
    · exact hsuits.callers caller hcaller
  · obtain ⟨hplaced, hend⟩ := placed_itemCode h hopens
    rw [hcode] at hplaced hend
    have hret := hhosts.length_returnStack hfits
    have htakes : P.Takes _ (c.shown P.code config (c.topPlace config.pos)) _ _ :=
      Process.takes_calling (hhosts.placed hplaced) (offset_lt_of_le hd.lt) (hhosts.length_data_le hfits)
        (Nat.lt_of_lt_of_le (Nat.lt_add_of_pos_right (by decide)) hret)
    rw [hend] at htakes
    exact htakes

end Plain

/-! ### Built-in words, literals and loop indices -/

section Item

variable (hhosts : c.Hosts P room) (hfits : config.Fits room) (hsuits : c.Suits config)
include hhosts hfits hsuits

theorem follows_literal {value : Cell} (h : c.items[config.pos]? = some (.number (.cell value) token index)) :
    c.Follows P config (config.push value) := by
  have hopens : ∀ kind, ¬c.Opens config.pos kind := by
    intro kind hopens
    cases hopens with
    | «if» h' | «else» h' | «while» h' | define h' _ =>
      rw [h] at h'
      cases h'
    | call h' =>
      obtain ⟨_, h', -⟩ := h'
      rw [h] at h'
      cases h'
  obtain ⟨hplaced, hend⟩ := placed_itemCode h hopens
  rw [itemCode, ← topPlace_eq h] at hplaced hend
  refine follows_plain h rfl (.inr rfl) hsuits ?_
  rw [← hend, (c.compiled h).state]
  exact Process.takes_literal (hhosts.placed hplaced) (hhosts.length_data_le hfits)

theorem follows_loopIndex {disp : BitVec 32} {i : Nat} {a : Cell}
    (h : c.items[config.pos]? = some (.keyword keyword token index)) (hlive : (c.state config.pos).starting = false)
    (hkeyword : keyword = .loopIndex ∨ keyword = .outerLoopIndex)
    (hcode : ∀ s : Compiler, s.keywordCode keyword = s.cache.state.spilling ++ [Instruction.load rax ⟨rsp, disp⟩])
    (hdisp : cellIndex? disp = some i) (hi : (c.returnStack P.code config)[i]? = some a) :
    c.Follows P config (config.push a) := by
  have hopens := not_opens_of_keyword h (by rcases hkeyword with rfl | rfl <;> simp)
  obtain ⟨hplaced, hend⟩ := placed_itemCode h hopens
  rw [itemCode, hcode, ← topPlace_eq h] at hplaced hend
  have hstate : (c.state (config.pos + 1)).cache.state = .cached := by
    rw [(c.compiled h).state]
    rcases hkeyword with rfl | rfl <;> rfl
  refine follows_plain h (by rcases hkeyword with rfl | rfl <;> rfl) (.inl hlive) hsuits ?_
  rw [← hend, hstate]
  exact Process.takes_loopIndex (hhosts.placed hplaced) (hhosts.length_data_le hfits) hdisp hi

theorem follows_primitive {word : Primitive} (h : c.items[config.pos]? = some (.word token index))
    (hlookup : Primitive.lookup? token.text = some word) (hfits' : config'.Fits room)
    (hstep : config.stepPrimitive word = .goesOn config') : c.Follows P config config' := by
  obtain ⟨hplaced, hend, hstate⟩ := placed_primitive h hlookup
  unfold Config.stepPrimitive at hstep
  split at hstep
  · cases hstep
  · next huses =>
    simp only [Bool.or_eq_true, not_or, Bool.not_eq_true] at huses
    split at hstep
    · next w he =>
      cases hstep
      refine follows_plain h rfl (.inr (startsCode_of_lookup? _ hlookup)) hsuits ?_
      rw [← hend, hstate]
      exact Process.takes_primitive huses.1 huses.2 (hhosts.placed c.placed_printNumber)
        (hhosts.placed hplaced) he (hhosts.length_data hfits) (hhosts.length_data_le hfits')
        (hhosts.length_returnStack hfits)
    · cases hstep
    · cases hstep

/-! ### Calls and returns -/

theorem follows_name (h : c.items[config.pos]? = some (.word token index))
    (hlookup : Primitive.lookup? token.text = none) (hstep : config.stepName c.items token.text = some config') :
    c.Follows P config config' := by
  obtain ⟨d, hd, rfl⟩ := Option.map_eq_some_iff.mp hstep
  obtain ⟨hreferent, hopens⟩ := Option.filter_eq_some_iff.mp hd
  have hdefinition := isDefinition_of_opensDefinition hopens
  obtain ⟨colon, name, index', hitem⟩ := hdefinition
  have hresolve : (c.state config.pos).resolve token index = some (.defined (.code (c.offset (d + 1)))) :=
    resolve_of_referent? h hlookup hreferent hitem
  refine follows_call h rfl (.inr ?_) hsuits hhosts hfits ⟨colon, name, index', hitem⟩
    (not_opens_of_resolve h (by rw [hresolve]; simp)) ?_ ?_
  · rw [startsCode, hresolve]
    rfl
  · rw [itemCode, resolve_ready, hresolve, Option.map_some, Option.getD_some, referenceCode, offset_ready_eq h,
      ← topPlace_eq h]
  · rw [(c.compiled h).state, stateAfter, resolve_ready, hresolve]

theorem follows_recurse (h : c.items[config.pos]? = some (.keyword .recurse token index))
    (hlive : (c.state config.pos).starting = false)
    (hstep : (enclosing? c.items config.pos).map config.call = some config') : c.Follows P config config' := by
  obtain ⟨d, hcurrent⟩ : ∃ d, (c.state config.pos).current = some d := by
    have hadmits := (c.compiled h).admits
    simp only [Admits, AdmitsKeyword, current_ready] at hadmits
    exact Option.isSome_iff_exists.mp hadmits
  obtain ⟨e, he, hdefinition, hoffset⟩ :=
    enclosing?_of_current (Nat.le_of_lt (List.getElem?_eq_some_iff.mp h).1) hcurrent
  rw [he] at hstep
  cases hstep
  refine follows_call h rfl (.inl hlive) hsuits hhosts hfits hdefinition (not_opens_of_keyword h (by simp)) ?_ ?_
  · rw [itemCode, keywordCode, current_ready, hcurrent, Option.map_some, Option.getD_some, hoffset, offset_ready_eq h,
      ← topPlace_eq h]
  · rw [(c.compiled h).state]
    rfl

/-- `;` and `exit`. -/
theorem follows_return (h : c.items[config.pos]? = some (.keyword keyword token index))
    (hkeyword : keyword = .semicolon ∨ keyword = .exit) (hstep : config.return? = some config') :
    c.Follows P config config' := by
  have hk := Nat.le_of_lt (List.getElem?_eq_some_iff.mp h).1
  obtain ⟨hplaced, -⟩ := placed_itemCode h (not_opens_of_keyword h (by rcases hkeyword with rfl | rfl <;> simp))
  have hcode : ((c.state config.pos).ready (.keyword keyword token index)).itemCode (.keyword keyword token index) =
      (c.topPlace config.pos).spilling ++ dropReturnCells (config.loops.flatMap LoopFrame.cells).length ++
        [Instruction.ret] := by
    rw [length_flatMap_cells, hsuits.loops, itemCode, topPlace_eq h]
    rcases hkeyword with rfl | rfl
    · obtain ⟨-, hcontrol⟩ : (c.state config.pos).current.isSome ∧ (c.state config.pos).control = [] := by
        simpa [Admits, AdmitsKeyword] using (c.compiled h).admits
      have hloops : loopsAt c.items config.pos = 0 := by
        rw [← openLoops_eq hk, hcontrol]
        rfl
      rw [hloops]
      exact (congrArg (· ++ _) (List.append_nil _)).symm
    · have hdrop := cellsToDrop_eq hhosts.structured hk
      rw [keywordCode, ← hdrop, cellsToDrop, cellsToDrop, control_ready, unlooped_ready, returnCells_ready]
  rw [hcode] at hplaced
  have hlength : 8 * (config.loops.flatMap LoopFrame.cells).length < 2 ^ 31 := by
    have := loopsAt_lt hk
    rw [length_flatMap_cells, hsuits.loops]
    omega
  unfold Config.return? at hstep
  split at hstep
  · next caller callers hcallers =>
    cases hstep
    have hback := hsuits.callers caller (by rw [hcallers]; exact List.mem_cons_self)
    refine ⟨⟨hback.le, hback.live, hback.loops, fun other hother => hsuits.callers other ?_⟩, ?_⟩
    · rw [hcallers]
      exact List.mem_cons_of_mem caller hother
    · rw [shown, returnStack, hcallers, hback.place]
      exact Process.takes_returning (hhosts.placed hplaced) (hhosts.length_data_le hfits) hlength
  · cases hstep

/-! ### Conditionals and loops with a test -/

theorem follows_jump (hplaced : Placed c.instructions (c.start config.pos)
      (branching (c.start config.pos) (c.topPlace config.pos).spilling .jump (c.offset (j + 1))))
    (hland : c.Landing j (loopsAt c.items config.pos)) : c.Follows P config (config.behind j) := by
  have hlt := hland.lt
  rw [← hsuits.loops] at hland
  refine follows_landing hland rfl hsuits.callers ?_
  exact Process.takes_jumping (hhosts.placed hplaced) (offset_lt_of_le hlt) (hhosts.length_data_le hfits)

theorem follows_meeting (h : c.items[config.pos]? = some (.keyword keyword token index))
    (hkeyword : keyword = .«then» ∨ keyword = .«begin») : c.Follows P config config.next := by
  obtain ⟨hplaced, hend⟩ := placed_itemCode h (not_opens_of_keyword h (by rcases hkeyword with rfl | rfl <;> simp))
  have hcode : ((c.state config.pos).ready (.keyword keyword token index)).itemCode (.keyword keyword token index) =
      (c.topPlace config.pos).spilling := by
    rw [itemCode, topPlace_eq h]
    rcases hkeyword with rfl | rfl <;> rfl
  have hland := landing_of_depth h (by rcases hkeyword with rfl | rfl <;> simp [Keyword.role])
    (by rcases hkeyword with rfl | rfl <;> simp) (by rcases hkeyword with rfl | rfl <;> rfl)
  rw [← hsuits.loops] at hland
  rw [hcode] at hplaced hend
  refine follows_landing hland rfl hsuits.callers ?_
  rw [← hend]
  exact Process.takes_spilling (hhosts.placed hplaced) (hhosts.length_data_le hfits)

omit hfits in
theorem follows_branchIfZero {target : Nat} {target? : Option Nat}
    (hplaced : Placed c.instructions (c.start config.pos)
      (branching (c.start config.pos) (testing (c.topPlace config.pos)) (.jumpIf .equal) target))
    (hend : c.start config.pos + codeSize
      (branching (c.start config.pos) (testing (c.topPlace config.pos)) (.jumpIf .equal) target) =
        c.offset (config.pos + 1))
    (htarget : target < 2 ^ 31)
    (hjump : ∀ j, target? = some j → target = c.offset (j + 1) ∧ c.Landing j (loopsAt c.items config.pos))
    (hnext : c.Landing config.pos (loopsAt c.items config.pos)) (hstep : config.branchIfZero target? = some config') :
    c.Follows P config config' := by
  unfold Config.branchIfZero at hstep
  split at hstep
  · next flag data hdata =>
    have htakes : P.Takes _ ⟨c.topPlace config.pos, flag :: data, c.returnStack P.code config, config.output⟩ _ _ :=
      Process.takes_branchIfZero (hhosts.placed hplaced) htarget
    rw [hend] at htakes
    split at hstep
    · next hzero =>
      obtain ⟨j, hj, rfl⟩ := Option.map_eq_some_iff.mp hstep
      obtain ⟨htarget, hland⟩ := hjump j hj
      rw [← hsuits.loops] at hland
      refine follows_landing hland rfl hsuits.callers ?_
      rw [if_pos hzero, htarget] at htakes
      rw [shown, hdata]
      exact htakes
    · next hzero =>
      cases hstep
      rw [← hsuits.loops] at hnext
      refine follows_landing hnext rfl hsuits.callers ?_
      rw [if_neg hzero] at htakes
      rw [shown, hdata]
      exact htakes
  · cases hstep

omit hfits in
/-- `if` and `while`. -/
theorem follows_test (h : c.items[config.pos]? = some (.keyword keyword token index))
    (hkeyword : keyword = .«if» ∨ keyword = .«while»)
    (hstep : config.branchIfZero (closer? c.items config.pos) = some config') : c.Follows P config config' := by
  have hopens : c.Opens config.pos (.jumpIf .equal) := by
    rcases hkeyword with rfl | rfl
    · exact .«if» h
    · exact .«while» h
  have hcode : ((c.state config.pos).ready (.keyword keyword token index)).itemCode (.keyword keyword token index) =
      testing (c.topPlace config.pos) ++ [Instruction.branch (.jumpIf .equal) 0] := by
    rw [itemCode, topPlace_eq h]
    rcases hkeyword with rfl | rfl <;> rfl
  obtain ⟨j, ho, -⟩ := branchAt_ahead hopens (by simp)
  obtain ⟨hplaced, hend⟩ := placed_branching h hopens hcode ho
  have hland := landing_of_closes h (by rcases hkeyword with rfl | rfl <;> simp) ho
  refine follows_branchIfZero hhosts hsuits hplaced hend (offset_lt_of_le hland.lt) ?_ ?_ hstep
  · intro j' hj'
    cases opener?_inj ho (opener?_of_closer? hj')
    exact ⟨rfl, hland⟩
  · exact landing_of_depth h (by rcases hkeyword with rfl | rfl <;> simp [Keyword.role])
      (by rcases hkeyword with rfl | rfl <;> simp) (by rcases hkeyword with rfl | rfl <;> rfl)

omit hfits in
theorem follows_until (h : c.items[config.pos]? = some (.keyword .«until» token index))
    (hstep : config.branchIfZero (opener? c.items config.pos) = some config') : c.Follows P config config' := by
  obtain ⟨hplaced, hend⟩ := placed_itemCode h (not_opens_of_keyword h (by simp))
  rw [itemCode, keywordCode, offset_ready_eq h, backTarget_ready, ← topPlace_eq h] at hplaced hend
  have hnext := landing_of_depth h (by simp [Keyword.role]) (by simp) rfl
  exact follows_branchIfZero hhosts hsuits hplaced hend (backTarget_lt h rfl)
    (fun _ => landing_of_ends h rfl (by simp)) hnext hstep

theorem follows_else (h : c.items[config.pos]? = some (.keyword .«else» token index))
    (hstep : (closer? c.items config.pos).map config.behind = some config') : c.Follows P config config' := by
  obtain ⟨j, hj, rfl⟩ := Option.map_eq_some_iff.mp hstep
  have ho := opener?_of_closer? hj
  have hcode : ((c.state config.pos).ready (.keyword .«else» token index)).itemCode (.keyword .«else» token index) =
      (c.topPlace config.pos).spilling ++ [Instruction.branch .jump 0] := by
    rw [itemCode, topPlace_eq h, keywordCode]
  obtain ⟨hplaced, -⟩ := placed_branching h (.«else» h) hcode ho
  exact follows_jump hhosts hfits hsuits hplaced (landing_of_closes h (.inr (.inl rfl)) ho)

/-- `again` and `repeat`. -/
theorem follows_back (h : c.items[config.pos]? = some (.keyword keyword token index))
    (hkeyword : keyword = .again ∨ keyword = .«repeat»)
    (hland : (c.state config.pos).backTarget = c.offset (j + 1) ∧ c.Landing j (loopsAt c.items config.pos)) :
    c.Follows P config (config.behind j) := by
  obtain ⟨hplaced, -⟩ := placed_itemCode h (not_opens_of_keyword h (by rcases hkeyword with rfl | rfl <;> simp))
  refine follows_jump hhosts hfits hsuits ?_ hland.2
  rw [itemCode] at hplaced
  rw [← hland.1, ← offset_ready_eq h, topPlace_eq h, ← backTarget_ready _ (.keyword keyword token index)]
  rw [← offset_ready_eq h] at hplaced
  rcases hkeyword with rfl | rfl <;> exact hplaced

/-! ### Counted loops -/

theorem follows_do (h : c.items[config.pos]? = some (.keyword .«do» token index)) {first limit : Cell}
    (hdata : config.data = first :: limit :: data) :
    c.Follows P config { config.next with data := data, loops := ⟨first, limit⟩ :: config.loops } := by
  obtain ⟨hplaced, hend⟩ := placed_itemCode h (not_opens_of_keyword h (by simp))
  rw [itemCode, keywordCode, ← topPlace_eq h] at hplaced hend
  have hland := landing_of_keyword h (by simp [Keyword.role]) (by simp)
  have hloops : loopsAt c.items (config.pos + 1) = config.loops.length + 1 := by
    have hsucc := loopsAt_succ h
    rw [Item.depth] at hsucc
    rw [hsuits.loops]
    omega
  rw [hloops] at hland
  have hret := hhosts.length_returnStack hfits
  have htakes : P.Takes _ ⟨c.topPlace config.pos, first :: limit :: data, c.returnStack P.code config, config.output⟩
      _ _ := Process.takes_enterLoop (hhosts.placed hplaced) (by omega)
  rw [hend] at htakes
  refine follows_landing hland rfl hsuits.callers ?_
  rw [shown, hdata]
  exact htakes

omit hhosts hfits in
/-- Going back in a counted loop, or leaving it. -/
theorem follows_endLoop {l : LoopFrame} {outer : List LoopFrame} {l? : Option LoopFrame}
    (h : c.items[config.pos]? = some (.keyword keyword token index)) (hkeyword : keyword = .loop ∨ keyword = .plusLoop)
    (hloops : config.loops = l :: outer)
    (htakes : P.Takes (c.start config.pos) (c.shown P.code config (c.topPlace config.pos))
      (if l?.isSome then (c.state config.pos).backTarget else c.offset (config.pos + 1))
      ⟨.spilled, data, l?.toList.flatMap LoopFrame.cells ++ c.returnStack P.code { config with loops := outer },
        config.output⟩)
    (hstep : { config with data := data }.endLoop c.items outer l? = some config') : c.Follows P config config' := by
  have hlength : outer.length + 1 = loopsAt c.items config.pos := by rw [← hsuits.loops, hloops, List.length_cons]
  cases l? with
  | some l' =>
    obtain ⟨b, hb, rfl⟩ := Option.map_eq_some_iff.mp hstep
    obtain ⟨htarget, hland⟩ : (c.state config.pos).backTarget = c.offset (b + 1) ∧
        c.Landing b (loopsAt c.items config.pos) := by
      rcases hkeyword with rfl | rfl
      · exact landing_of_ends h rfl (by simp) hb
      · exact landing_of_ends h rfl (by simp) hb
    rw [← hlength] at hland
    refine follows_landing hland rfl hsuits.callers ?_
    rw [← htarget]
    exact htakes
  | none =>
    cases hstep
    have hland := landing_of_keyword h (by rcases hkeyword with rfl | rfl <;> simp [Keyword.role])
      (by rcases hkeyword with rfl | rfl <;> simp)
    have hsucc := loopsAt_succ h
    have hdepth : (Item.keyword keyword token index).depth = -1 := by rcases hkeyword with rfl | rfl <;> rfl
    have hnext : loopsAt c.items (config.pos + 1) = outer.length := by
      rw [hdepth] at hsucc
      omega
    rw [hnext] at hland
    exact follows_landing hland rfl hsuits.callers htakes

theorem follows_loop (h : c.items[config.pos]? = some (.keyword .loop token index)) {l : LoopFrame}
    {outer : List LoopFrame} (hloops : config.loops = l :: outer)
    (hstep : config.endLoop c.items outer l.step? = some config') : c.Follows P config config' := by
  obtain ⟨hplaced, hend⟩ := placed_itemCode h (not_opens_of_keyword h (by simp))
  rw [itemCode, keywordCode, offset_ready_eq h, backTarget_ready, ← topPlace_eq h] at hplaced hend
  have htakes : P.Takes _ ⟨c.topPlace config.pos, config.data,
      l.cells ++ c.returnStack P.code { config with loops := outer }, config.output⟩ _ _ :=
    Process.takes_loop (hhosts.placed hplaced) (backTarget_lt h rfl) (hhosts.length_data_le hfits)
  rw [hend] at htakes
  refine follows_endLoop hsuits h (.inl rfl) hloops ?_ hstep
  rw [shown, returnStack, hloops, List.flatMap_cons, List.append_assoc]
  exact htakes

omit hfits in
theorem follows_plusLoop (h : c.items[config.pos]? = some (.keyword .plusLoop token index)) {l : LoopFrame}
    {step : Cell} {outer : List LoopFrame} (hdata : config.data = step :: data) (hloops : config.loops = l :: outer)
    (hstep : { config with data := data }.endLoop c.items outer (l.stepBy? step) = some config') :
    c.Follows P config config' := by
  obtain ⟨hplaced, hend⟩ := placed_itemCode h (not_opens_of_keyword h (by simp))
  rw [itemCode, keywordCode, offset_ready_eq h, backTarget_ready, ← topPlace_eq h] at hplaced hend
  have htakes : P.Takes _ ⟨c.topPlace config.pos, step :: data,
      l.cells ++ c.returnStack P.code { config with loops := outer }, config.output⟩ _ _ :=
    Process.takes_plusLoop (hhosts.placed hplaced) (backTarget_lt h rfl)
  rw [hend] at htakes
  refine follows_endLoop hsuits h (.inr rfl) hloops ?_ hstep
  rw [shown, returnStack, hdata, hloops, List.flatMap_cons, List.append_assoc]
  exact htakes

/-! ### Steps -/

/-- A definition inside the main program is jumped over. -/
theorem follows_define {colon name : Token} (h : c.items[config.pos]? = some (.define colon name index))
    (hlive : (c.state config.pos).starting = false)
    (hstep : (closer? c.items config.pos).map config.behind = some config') : c.Follows P config config' := by
  obtain ⟨e, he, rfl⟩ := Option.map_eq_some_iff.mp hstep
  have hdefinition : c.IsDefinition config.pos := ⟨colon, name, index, h⟩
  have ho := opener?_of_closer? he
  have hentry : (c.state config.pos).entry.isSome := by
    obtain ⟨hcurrent, -⟩ : (c.state config.pos).current = none ∧ (c.state config.pos).control = [] := by
      simpa [Admits] using (c.compiled h).admits
    rcases starting_eq_false_iff.mp hlive with hentry | hsome
    · exact hentry
    · simp [hcurrent] at hsome
  have hcode : ((c.state config.pos).ready (.define colon name index)).itemCode (.define colon name index) =
      (c.topPlace config.pos).spilling ++ [Instruction.branch .jump 0] := by
    rw [itemCode, entry_ready_define, if_pos hentry, topPlace_eq h]
  obtain ⟨hplaced, -⟩ := placed_branching h (.define h hentry) hcode ho
  refine follows_jump hhosts hfits hsuits hplaced ?_
  rw [loopsAt_of_isDefinition hdefinition]
  exact IsBody.landing ⟨hdefinition, ho⟩ hentry

theorem follows_keyword (h : c.items[config.pos]? = some (.keyword keyword token index))
    (hready : (c.state config.pos).starting = false ∨
      (c.state config.pos).startsCode (.keyword keyword token index))
    (hstep : config.stepKeyword c.items keyword = some config') : c.Follows P config config' := by
  have hlive : (c.state config.pos).startsCode (.keyword keyword token index) = false →
      (c.state config.pos).starting = false := by
    intro hcode
    rcases hready with hlive | hstarts
    · exact hlive
    · rw [hcode] at hstarts
      cases hstarts
  cases keyword <;> simp only [Config.stepKeyword] at hstep
  case «if» => exact follows_test hhosts hsuits h (.inl rfl) hstep
  case «while» => exact follows_test hhosts hsuits h (.inr rfl) hstep
  case «else» => exact follows_else hhosts hfits hsuits h hstep
  case «then» =>
    cases hstep
    exact follows_meeting hhosts hfits hsuits h (.inl rfl)
  case «begin» =>
    cases hstep
    exact follows_meeting hhosts hfits hsuits h (.inr rfl)
  case «until» => exact follows_until hhosts hsuits h hstep
  case again =>
    obtain ⟨b, hb, rfl⟩ := Option.map_eq_some_iff.mp hstep
    exact follows_back hhosts hfits hsuits h (.inl rfl) (landing_of_ends h rfl (by simp) hb)
  case «repeat» =>
    obtain ⟨b, hb, rfl⟩ := Option.map_eq_some_iff.mp hstep
    obtain ⟨w, hw, hb⟩ := Option.bind_eq_some_iff.mp hb
    exact follows_back hhosts hfits hsuits h (.inr rfl) (landing_of_repeat h hw hb)
  case «do» =>
    split at hstep
    · next hdata =>
      cases hstep
      exact follows_do hhosts hfits hsuits h hdata
    · cases hstep
  case loop =>
    split at hstep
    · next hloops => exact follows_loop hhosts hfits hsuits h hloops hstep
    · cases hstep
  case plusLoop =>
    split at hstep
    · next hdata hloops => exact follows_plusLoop hhosts hsuits h hdata hloops hstep
    · cases hstep
  case loopIndex =>
    split at hstep
    · next hloops =>
      cases hstep
      refine follows_loopIndex hhosts hfits hsuits h (hlive rfl) (.inl rfl) (fun _ => rfl) (i := 0) (by decide) ?_
      rw [returnStack, hloops]
      rfl
    · cases hstep
  case outerLoopIndex =>
    split at hstep
    · next hloops =>
      cases hstep
      refine follows_loopIndex hhosts hfits hsuits h (hlive rfl) (.inr rfl) (fun _ => rfl) (i := 2) (by decide) ?_
      rw [returnStack, hloops]
      rfl
    · cases hstep
  case semicolon => exact follows_return hhosts hfits hsuits h (.inl rfl) hstep
  case exit => exact follows_return hhosts hfits hsuits h (.inr rfl) hstep
  case recurse => exact follows_recurse hhosts hfits hsuits h (hlive rfl) hstep
  all_goals cases hstep

/-- **Every step of the interpreter is followed** by the process. -/
theorem follows_step (h : c.items[config.pos]? = some item)
    (hready : (c.state config.pos).starting = false ∨ (c.state config.pos).startsCode item)
    (hfits' : config'.Fits room) (hstep : config.step c.items = .goesOn config') : c.Follows P config config' := by
  simp only [Config.step, h] at hstep
  cases item with
  | define colon name index =>
    rcases hready with hlive | hstarts
    · exact follows_define hhosts hfits hsuits h hlive (Outcome.ofOption_eq_goesOn_iff.mp hstep)
    · cases hstarts
  | «variable» word name index => cases hstep
  | keyword keyword token index =>
    exact follows_keyword hhosts hfits hsuits h hready (Outcome.ofOption_eq_goesOn_iff.mp hstep)
  | number literal token index =>
    cases literal with
    | cell value =>
      cases hstep
      exact follows_literal hhosts hfits hsuits h
    | outOfRange => cases hstep
  | word token index =>
    dsimp only at hstep
    split at hstep
    · next hlookup => exact follows_primitive hhosts hfits hsuits h hlookup hfits' hstep
    · next hlookup => exact follows_name hhosts hfits hsuits h hlookup (Outcome.ofOption_eq_goesOn_iff.mp hstep)

omit hsuits in
/-- An item at which the interpreter halts ends the process. -/
theorem ends_of_halts (h : c.items[config.pos]? = some item) (hstep : config.step c.items = .halts output) :
    P.Ends (c.start config.pos) (c.shown P.code config (c.topPlace config.pos)).Matches output := by
  have hundefined : ∀ config? : Option Config, Outcome.ofOption config? ≠ .halts output := by
    intro config?
    cases config? <;> simp [Outcome.ofOption]
  simp only [Config.step, h] at hstep
  cases item with
  | define colon name index => exact absurd hstep (hundefined _)
  | «variable» word name index => cases hstep
  | keyword keyword token index => exact absurd hstep (hundefined _)
  | number literal token index => cases literal <;> cases hstep
  | word token index =>
    dsimp only at hstep
    split at hstep
    · next word hlookup =>
      unfold Config.stepPrimitive at hstep
      split at hstep
      · cases hstep
      · split at hstep
        · cases hstep
        · next heffect =>
          cases hstep
          cases Primitive.eq_bye_of_halts heffect
          obtain ⟨hplaced, -, -⟩ := placed_primitive h hlookup
          exact Process.ends_spilling (hhosts.placed hplaced) (hhosts.length_data_le hfits)
        · cases hstep
    · exact absurd hstep (hundefined _)

end Item

/-! ### Runs -/

theorem fits_of_interpret {items : List Item} {fuel : Nat} (h : interpret items room fuel config = some output) :
    config.Fits room := by
  cases fuel with
  | zero => cases h
  | succ fuel =>
    rw [interpret] at h
    split at h
    · next hfits => exact hfits
    · cases h

theorem ends_at_last (hhosts : c.Hosts P room) (hfits : config.Fits room) (hlive : c.last.starting = false) :
    P.Ends (c.offset c.items.length) (c.shown P.code config c.last.cache.state).Matches config.output := by
  have hending : c.ending = c.last.cache.state.spilling ++ exitBlock 0 := by
    rw [ending, opening, begun, hlive]
    rfl
  have hplaced := c.placed_ending
  rw [hending] at hplaced
  exact Process.ends_spilling (hhosts.placed hplaced) (hhosts.length_data_le hfits)

/-- The item at hand, and then the rest of the run. -/
theorem ends_of_item (hhosts : c.Hosts P room) (hsuits : c.Suits config) (h : c.items[config.pos]? = some item)
    (hready : (c.state config.pos).starting = false ∨ (c.state config.pos).startsCode item) {fuel : Nat}
    (hrest : ∀ config', c.Reached config' → interpret c.items room fuel config' = some output →
      P.Ends (c.offset config'.pos) (c.shown P.code config' (c.state config'.pos).cache.state).Matches output)
    (hrun : interpret c.items room (fuel + 1) config = some output) :
    P.Ends (c.start config.pos) (c.shown P.code config (c.topPlace config.pos)).Matches output := by
  have hfits := fits_of_interpret hrun
  rw [interpret, if_pos hfits] at hrun
  cases hstep : config.step c.items with
  | goesOn config' =>
    rw [hstep] at hrun
    obtain ⟨hreached, htakes⟩ := follows_step hhosts hfits hsuits h hready (fits_of_interpret hrun) hstep
    exact htakes.ends (hrest config' hreached hrun)
  | halts output' =>
    simp only [hstep, Option.some.injEq] at hrun
    rw [← hrun]
    exact ends_of_halts hhosts hfits h hstep
  | undefined =>
    rw [hstep] at hrun
    cases hrun

theorem eq_of_interpret_of_none {fuel : Nat} (h : c.items[config.pos]? = none)
    (hrun : interpret c.items room (fuel + 1) config = some output) : config.output = output := by
  have hfits := fits_of_interpret hrun
  rw [interpret, if_pos hfits] at hrun
  simpa only [Config.step, h, Option.some.injEq] using hrun

/-- **Every run of the interpreter is followed to its end.** -/
theorem ends_of_interpret (hhosts : c.Hosts P room) {fuel : Nat} (hreached : c.Reached config)
    (hrun : interpret c.items room fuel config = some output) :
    P.Ends (c.offset config.pos) (c.shown P.code config (c.state config.pos).cache.state).Matches output := by
  induction fuel generalizing config with
  | zero => cases hrun
  | succ fuel ih =>
    cases hitem : c.items[config.pos]? with
    | none =>
      have hlast : config.pos = c.items.length := Nat.le_antisymm hreached.le (List.getElem?_eq_none_iff.mp hitem)
      have hlive := hreached.live
      rw [← eq_of_interpret_of_none hitem hrun]
      rw [hlast] at hlive ⊢
      exact ends_at_last hhosts (fits_of_interpret hrun) hlive
    | some item =>
      rw [← start_eq hreached.live, ← topPlace_of_starting hitem hreached.live]
      exact ends_of_item hhosts hreached.suits hitem (.inl hreached.live) (fun _ => ih) hrun

end Compilation

/-! ### The start of a process -/

/-- A machine at the start of a program: so many cells below `rsp` are free, apart from the data stack and the cell
below it. -/
structure Machine.Launches (m : Machine) (code : LoadedCode) (options : Options) (entry cells : Nat) : Prop where
  ip_eq : m.ip = code.address entry
  output_eq : m.output = []
  free : 8 * cells ≤ (m.reg rsp).toNat
  apart : (m.reg rsp).toNat + 8 ≤ options.dataBase.toNat ∨
    options.stackTop.toNat + 8 * cells ≤ (m.reg rsp).toNat

theorem Options.Sound.eight_le_dataBase {options : Options} (h : options.Sound) : 8 ≤ options.dataBase.toNat := by
  have haligned := h.dataBase_aligned
  have hlt := h.codeBase_lt
  have hpage : pageSize = 4096 := rfl
  rw [hpage] at haligned
  omega

theorem Options.Sound.le_stackTop {options : Options} (h : options.Sound) :
    8 * (options.stackSize.toNat / 8 + 1) ≤ options.stackTop.toNat := by
  have hbase := h.eight_le_dataBase
  have htop := h.stackTop_eq
  omega

namespace Machine.Launches

variable {m : Machine} {code : LoadedCode} {options : Options} {entry cells : Nat}
  (h : m.Launches code options entry cells) (hsound : options.Sound)

def area : Stack → Area
  | .data => ⟨options.stackTop.toNat, options.stackSize.toNat / 8 + 1, hsound.le_stackTop, options.stackTop.toNat_lt⟩
  | .ret => ⟨(m.reg rsp).toNat, cells, h.free, (m.reg rsp).isLt⟩

theorem eq_of_contains (s t : Stack) (x : Nat) (hs : (h.area hsound s).Contains x) (ht : (h.area hsound t).Contains x) :
    s = t := by
  have hbase := hsound.eight_le_dataBase
  have htop := hsound.stackTop_eq
  have haligned := hsound.stackSize_aligned
  have hfree := h.free
  have hapart := h.apart
  cases s <;> cases t <;> simp only [area, Area.Contains] at hs ht <;> first | rfl | omega

def areas : Areas where
  area := h.area hsound
  apart := h.eq_of_contains hsound

end Machine.Launches

namespace Compilation

variable {c : Compilation}

section Launch

variable (kernel : Kernel) {m : Machine} {base : BitVec 64} {cells : Nat}
  (hm : m.Launches ⟨base, c.program.code⟩ c.options c.program.entryOffset cells)
include hm

theorem exists_stands_of_launches
    (hplaced : Placed c.instructions c.program.entryOffset (entryBlock c.options.stackTop)) :
    ∃ m' v, Reaches kernel ⟨base, c.program.code⟩ m m' ∧
      Stands ⟨base, c.program.code⟩ (hm.areas c.sound) v
        (c.program.entryOffset + codeSize (entryBlock c.options.stackTop)) m' ∧
      Status.Matches ⟨.spilled, [], [], []⟩ v := by
  have hconsists : LoadedCode.Consists ⟨base, c.program.code⟩ c.instructions :=
    (c.process kernel base (hm.areas c.sound)).consists
  refine ⟨(m.jump _).setReg rbx c.options.stackTop.toBitVec, ⟨_, _, fun _ => [], _, _⟩, .step ?_,
    ⟨⟨rfl, rfl, rfl, ?_, fun _ _ _ => rfl⟩, rfl⟩, rfl, rfl, hm.output_eq⟩
  · rw [Machine.step, hm.ip_eq, LoadedCode.fetch?_address hconsists hplaced]
    rfl
  · intro s
    refine ⟨Nat.zero_le _, ?_, Stored.nil _ _⟩
    cases s with
    | data => exact (BitVec.ofNat_toNat 64 c.options.stackTop.toBitVec).symm
    | ret => exact ((BitVec.ofNat_toNat 64 (m.reg rsp)).trans (BitVec.setWidth_eq _)).symm

theorem exits_of_ends (hplaced : Placed c.instructions c.program.entryOffset (entryBlock c.options.stackTop))
    {output : List UInt8} (hends : (c.process kernel base (hm.areas c.sound)).Ends
      (c.program.entryOffset + codeSize (entryBlock c.options.stackTop))
      (Status.Matches ⟨.spilled, [], [], []⟩) output) :
    ∃ n m', m.run kernel ⟨base, c.program.code⟩ n = .exited 0 m' ∧ m'.output = output := by
  obtain ⟨m₁, v, ⟨n, hn⟩, hstands, hv⟩ := exists_stands_of_launches kernel hm hplaced
  obtain ⟨n', m', hrun, houtput⟩ := hends m₁ v hstands hv
  exact ⟨n + n', m', (Machine.run_add hn n').trans hrun, houtput⟩

theorem exits_of_last (hstarting : c.last.starting = true) :
    ∃ n m', m.run kernel ⟨base, c.program.code⟩ n = .exited 0 m' ∧ m'.output = [] := by
  obtain ⟨hentry, hending⟩ := entryOffset_of_last hstarting
  have hplaced := c.placed_ending
  rw [hending, ← hentry] at hplaced
  have hexit : Placed c.instructions _ (CacheState.spilled.spilling ++ exitBlock 0) := hplaced.right
  exact exits_of_ends kernel hm hplaced.left (Process.ends_spilling hexit (Nat.zero_le _))

variable {limit fuel k : Nat} {output : List UInt8}
  (hhosts : c.Hosts (c.process kernel base (hm.areas c.sound)) ⟨c.options.stackSize.toNat / 8, limit⟩)
include hhosts

theorem exits_of_startsCode {item : Item} (h : c.items[k]? = some item) (hstarting : (c.state k).starting = true)
    (hstarts : (c.state k).startsCode item = true)
    (hrun : interpret c.items ⟨c.options.stackSize.toNat / 8, limit⟩ (fuel + 1) { pos := k } = some output) :
    ∃ n m', m.run kernel ⟨base, c.program.code⟩ n = .exited 0 m' ∧ m'.output = output := by
  have hk := (List.getElem?_eq_some_iff.mp h).1
  obtain ⟨hentry, hlead, hplace⟩ := entryOffset_eq h hstarting hstarts
  have hplaced := placed_lead hk
  rw [← hentry, hlead] at hplaced
  have hsuits : c.Suits { pos := k } := by
    refine ⟨?_, fun caller hcaller => by cases hcaller⟩
    rw [← openLoops_eq (Nat.le_of_lt hk), control_of_starting (Nat.le_of_lt hk) hstarting]
    rfl
  have hends := ends_of_item hhosts hsuits h (.inr hstarts) (fun _ => ends_of_interpret hhosts) hrun
  dsimp only at hends
  rw [start, hlead, ← hentry, hplace] at hends
  exact exits_of_ends kernel hm hplaced hends

/-- **The process does what the interpreter does**: the definitions in front of the main program are passed over. -/
theorem exits_of_interpret (hk : k ≤ c.items.length) (hstarting : (c.state k).starting = true)
    (hrun : interpret c.items ⟨c.options.stackSize.toNat / 8, limit⟩ fuel { pos := k } = some output) :
    ∃ n m', m.run kernel ⟨base, c.program.code⟩ n = .exited 0 m' ∧ m'.output = output := by
  induction fuel generalizing k with
  | zero => cases hrun
  | succ fuel ih =>
    cases hitem : c.items[k]? with
    | none =>
      obtain rfl : k = c.items.length := Nat.le_antisymm hk (List.getElem?_eq_none_iff.mp hitem)
      rw [← eq_of_interpret_of_none hitem hrun]
      exact exits_of_last kernel hm hstarting
    | some item =>
      rcases starts_or_defines hitem hstarting hhosts.bestEffort with hstarts | hdefinition | hvariable
      · exact exits_of_startsCode kernel hm hhosts hitem hstarting hstarts hrun
      · obtain ⟨colon, name, index, hdefine⟩ := hdefinition
        have hfits := fits_of_interpret hrun
        rw [interpret, if_pos hfits] at hrun
        simp only [Config.step, hdefine] at hrun
        cases he : closer? c.items k with
        | none =>
          rw [he] at hrun
          cases hrun
        | some e =>
          rw [he] at hrun
          have hbody : c.IsBody k e := ⟨⟨colon, name, index, hdefine⟩, opener?_of_closer? he⟩
          exact ih hbody.lt_length (hbody.starting hstarting) hrun
      · -- No variable is structured.
        have hword := hhosts.structured item (List.mem_of_getElem? hitem)
        cases item with
        | «variable» word name index => cases hword
        | _ => cases hvariable

end Launch

end Compilation

def sourceItems (source : String) : List Item :=
  match tokenize source with
  | .ok tokens => items tokens
  | .error _ => []

/-- **Compiled programs run as interpreted.** Take a source text of structured words that compiles, with every name
defined.  If the interpreter gets through its items, with no more than `stackSize / 8` cells on the data stack and
`limit` cells on the return stack, then a process that starts at the entry of the code, with as many free cells below
`rsp` and five more, writes what the interpreter writes and ends with status zero. -/
theorem runs_as_interpreted {source : String} {options : Options} {program : Program}
    (hcompile : compile source options = .ok program) (hbest : options.bestEffort = false)
    (hstructured : ∀ item ∈ sourceItems source, item.isStructured) {limit fuel : Nat} {output : List UInt8}
    (hrun : interpret (sourceItems source) ⟨options.stackSize.toNat / 8, limit⟩ fuel {} = some output)
    (kernel : Kernel) {base : BitVec 64} {m : Machine}
    (hm : m.Launches ⟨base, program.code⟩ options program.entryOffset (limit + 5)) :
    ∃ n m', m.run kernel ⟨base, program.code⟩ n = .exited 0 m' ∧ m'.output = output := by
  obtain ⟨c, rfl, rfl, htokens⟩ := exists_compilation hcompile
  have hitems : sourceItems source = c.items := by
    rw [sourceItems, htokens]
    rfl
  rw [hitems] at hstructured hrun
  have hstarting : (c.state 0).starting = true := by
    rw [c.state_zero, announced_eq]
    rfl
  refine Compilation.exits_of_interpret kernel hm ?_ (Nat.zero_le _) hstarting hrun
  exact ⟨rfl, hstructured, hbest, Nat.lt_succ_self _, Nat.le_refl _⟩

/-- A recursive definition with an early exit, called in a loop, and a definition inside the main program. -/
def sums : String :=
  ": sum dup if dup 1- recurse + exit then ; 3 0 do i sum . loop : twice dup + ; 4 twice ."

theorem runs_as_interpreted_sums : ∃ program : Program, compile sums {} = .ok program ∧
    ∃ m : Machine, m.Launches ⟨0x4000B0, program.code⟩ {} program.entryOffset 25 ∧
      ∀ kernel, ∃ n m', m.run kernel ⟨0x4000B0, program.code⟩ n = .exited 0 m' ∧
        m'.output = [48, 32, 49, 32, 51, 32, 56, 32] := by
  obtain ⟨program, h⟩ := exists_of_isOk (x := compile sums {}) (by decide +kernel)
  have hrun : interpret (sourceItems sums) ⟨({} : Options).stackSize.toNat / 8, 20⟩ 100 {} =
      some [48, 32, 49, 32, 51, 32, 56, 32] := by decide +kernel
  have hfree : 8 * 25 ≤ (0x7fffffffe000 : BitVec 64).toNat := by decide
  have hapart : ({} : Options).stackTop.toNat + 8 * 25 ≤ (0x7fffffffe000 : BitVec 64).toNat := by decide
  have hm : Machine.Launches ⟨LoadedCode.address ⟨0x4000B0, program.code⟩ program.entryOffset,
      fun _ => 0x7fffffffe000, {}, fun _ => 0, []⟩ ⟨0x4000B0, program.code⟩ {} program.entryOffset 25 :=
    ⟨rfl, rfl, hfree, .inr hapart⟩
  exact ⟨program, h, _, hm, fun kernel => runs_as_interpreted h rfl (by decide +kernel) hrun kernel hm⟩

end ForthElf
