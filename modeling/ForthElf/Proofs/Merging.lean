import ForthElf.Proofs.Atomicity

/-!
# Where paths meet, the top cell is in memory

The compiler knows of each place in the code whether the top cell is in `rax` or in memory.  A branch needs both ends to
agree.

* `Compiler.strictTokens` — a stricter compiler: it fails unless the top cell is in memory at every branch of a
  control word, at every jump around a definition and call of one, and at every place to which they lead;
* `Compiler.Framed s` — every open construct expects the top cell in memory, and is part of a definition or of the main
  program;
* `Emitter.Steady e e'` — where the top cell is in memory, it stays there until code is added;
* `Compiler.Agrees` — the strict action does what the plain one does, by one rule for each basic action;
* `merges_spilled` — **in every state that is reached the stricter compiler does what the compiler does**.
-/

namespace ForthElf

open Register

/-- Whether an error is that of two paths that meet with the top cell in different places. -/
def Error.isMismatch : Error → Bool
  | .cacheMismatch .. => true
  | _ => false

namespace Compiler

/-! ### A stricter compiler -/

/-- Emits a branch without a target, with the top cell in memory. -/
def leave (pos : Position) (kind : Branch) : Compile Nat := do
  checkMerge .spilled pos
  placeholder kind

/-- Emits a branch to a known target, with the top cell in memory. -/
def leaveTo (pos : Position) (kind : Branch) (target : Nat) : Compile Unit := do
  checkMerge .spilled pos
  emitter (Emitter.branchTo kind target)

/-- The place of the next instruction as the target of branches, with the top cell in memory. -/
def arrive (pos : Position) : Compile Nat := do
  checkMerge .spilled pos
  here

/-- Makes a branch field lead to the next instruction, with the top cell in memory. -/
def arriveFrom (pos : Position) (site : Nat) : Compile Unit := do
  checkMerge .spilled pos
  patchHere site

/-- `;` — the jump around the definition arrives behind it. -/
def strictEnd (pos : Position) : Compile Unit := do
  let s ← get
  match s.current with
  | none => throw (.outsideDefinition ";" pos)
  | some definition =>
    require s.control.ensureClosed
    if 0 < s.returnCells then note (.cellsLeft pos definition.name s.returnCells)
    modify ({ · with returnCells := 0, unlooped := 0 })
    emitting fun e => e.spill.emit .ret
    match definition.skipSite with
    | some site => patch site (← arrive pos)
    | none => pure ()
    modify fun s =>
      { s with dictionary := s.dictionary.reveal definition.number, current := none }
    count (·.countWord)
    note (.definitionDone definition.name ((← here) - definition.offset))

/-- A keyword.  The checks stand for those of the plain keyword. -/
def strictKeyword (token : Token) : Keyword → Compile Unit
  | .semicolon => strictEnd token.pos
  | .«if» => do
    beginCode
    testFlag
    let site ← leave token.pos (.jumpIf .equal)
    pushFrame (.«if» site) token.pos (← get).cache.state
  | .«else» => do
    let (site, frame) ← popFor "else" token.pos fun
      | .«if» site => some site
      | _ => none
    emitting (·.spill)
    let state := (← get).cache.state
    let skip ← leave token.pos .jump
    patchHere site
    emitting (·.setState frame.state)
    -- the jump of the `if` arrives here, with the state of the `if`
    checkMerge .spilled token.pos
    pushFrame (.«else» skip) token.pos state
  | .«then» => do
    let (site, _) ← popFor "then" token.pos fun
      | .«if» site => some site
      | .«else» site => some site
      | _ => none
    emitting (·.spill)
    arriveFrom token.pos site
  | .«begin» => do
    beginCode
    emitting (·.spill)
    let target ← arrive token.pos
    pushFrame (.«begin» target) token.pos (← get).cache.state
  | .«until» => do
    let (target, _) ← popBegin "until" token.pos
    testFlag
    leaveTo token.pos (.jumpIf .equal) target
  | .again => do
    let (target, _) ← popBegin "again" token.pos
    emitting (·.spill)
    leaveTo token.pos .jump target
  | .«while» => do
    let (target, state) ← popBegin "while" token.pos
    testFlag
    let site ← leave token.pos (.jumpIf .equal)
    pushFrame (.«while» target site) token.pos state
  | .«repeat» => do
    let ((target, site), _) ← popFor "repeat" token.pos fun
      | .«while» target site => some (target, site)
      | _ => none
    emitting (·.spill)
    leaveTo token.pos .jump target
    arriveFrom token.pos site
  | .«do» => do
    beginCode
    emitting fun e => (e.fill.emitBlock enterLoop).setState .spilled
    let body ← arrive token.pos
    pushFrame (.«do» body) token.pos (← get).cache.state
  | .loop => do
    let (body, _) ← popDo "loop" token.pos
    emitting (·.spill)
    emitBlock stepByOne
    leaveTo token.pos (.jumpIf .less) body
    emitBlock [dropLoop]
  | .plusLoop => do
    let (body, _) ← popDo "+loop" token.pos
    emitting fun e => e.fill.setState .spilled
    emitBlock stepByTop
    let crossed ← leave token.pos (.jumpIf .overflow)
    emitBlock compareLimit
    leaveTo token.pos (.jumpIf .notEqual) body
    arriveFrom token.pos crossed
    emitBlock [dropLoop]
  | .recurse => do
    match (← get).current with
    | none => throw (.outsideDefinition token.text token.pos)
    | some definition =>
      emitting (·.spill)
      leaveTo token.pos .call definition.offset
      count (·.countCall)
  | k => compileKeyword token k

/-- The jump around a definition, if the main program has started. -/
def strictSkip (pos : Position) : Compile (Option Nat) := do
  if (← get).entry.isSome then
    emitting (·.spill)
    return some (← leave pos .jump)
  else return none

/-- `:` — main code jumps over the definition, and calls arrive at its start. -/
def strictDefine (name : Token) (pos : Position) : Compile Unit := do
  let s ← get
  if s.current.isSome ∨ s.control ≠ [] then throw (.nestedDefinition pos)
  let skipSite ← strictSkip pos
  emitting (·.setState .spilled)
  noteOlderMeaning name
  let offset ← arrive pos
  let number := (← get).dictionary.size
  modify fun s => { s with dictionary := s.dictionary.define ⟨name.text, .code offset, name.pos, true⟩ }
  let sites := (← get).forward.sitesOf name.text
  modify fun s => { s with forward := s.forward.resolve name.text }
  resolveCalls name.text offset sites
  note (.definitionStarted name.text offset)
  modify ({ · with
    returnCells := 0
    unlooped := 0
    current := some ⟨name.text, number, offset, pos, skipSite⟩ })

/-- A call of a definition that is there. -/
def strictCall (pos : Position) (offset : Nat) : Compile Unit := do
  beginCode
  emitting (·.spill)
  leaveTo pos .call offset
  count (·.countCall)

/-- A call of a definition that is still ahead. -/
def strictForwardCall (token : Token) : Compile Unit := do
  beginCode
  emitting (·.spill)
  let site ← leave token.pos .call
  modify fun s => { s with forward := s.forward.await ⟨token.text, site, token.pos⟩ }
  count (·.countCall)

def strictWord (token : Token) (index : Nat) : Compile Unit := do
  match (← get).resolve token index with
  | some (.defined (.code offset)) => strictCall token.pos offset
  | some .later => strictForwardCall token
  | _ => compileWord token index

def strictItem : Item → Compile Unit
  | .define colon name _ => do
    meetToken colon
    strictDefine name colon.pos
  | .keyword keyword token _ => do
    meetToken token
    strictKeyword token keyword
  | .word token index => do
    meetToken token
    strictWord token index
  | item => compileItem item

def strictTokens (tokens : List Token) : Compile Unit := do
  announceHeaders tokens
  (items tokens).forM strictItem

end Compiler

/-! ### The top cell stays in memory until code is added -/

namespace Emitter

/-- Code is only added, and where the top cell is in memory it stays there until code is added. -/
structure Steady (e e' : Emitter) : Prop where
  grows : e.offset ≤ e'.offset
  stays : e.cache.state = .spilled → e'.offset = e.offset → e'.cache.state = .spilled

section Steady

variable {e e' e'' : Emitter}

theorem Steady.of_spilled (hgrows : e.offset ≤ e'.offset) (h : e'.cache.state = .spilled) : e.Steady e' :=
  ⟨hgrows, fun _ _ => h⟩

theorem Steady.of_lt (h : e.offset < e'.offset) : e.Steady e' :=
  ⟨Nat.le_of_lt h, fun _ heq => absurd heq (Nat.ne_of_gt h)⟩

theorem Steady.of_state (hgrows : e.offset ≤ e'.offset) (h : e'.cache.state = e.cache.state) : e.Steady e' :=
  ⟨hgrows, fun hstate _ => h.trans hstate⟩

theorem Steady.refl (e : Emitter) : e.Steady e :=
  .of_state (Nat.le_refl _) rfl

theorem Steady.trans (h : e.Steady e') (h' : e'.Steady e'') : e.Steady e'' := by
  refine ⟨Nat.le_trans h.grows h'.grows, fun hstate heq => ?_⟩
  have hgrows := h.grows
  have hgrows' := h'.grows
  exact h'.stays (h.stays hstate (by omega)) (by omega)

theorem steady_spill (e : Emitter) : e.Steady e.spill :=
  .of_spilled (offset_le_spill e) (state_spill e)

theorem steady_emitBlock (e : Emitter) (block : List Instruction) : e.Steady (e.emitBlock block) :=
  .of_state (offset_le_emitBlock block e) (by rw [cache_emitBlock])

theorem steady_placeholder (e : Emitter) (kind : Branch) : e.Steady (e.placeholder kind) :=
  steady_emitBlock e [.branch kind 0]

theorem steady_fill_setState (e : Emitter) : e.Steady (e.fill.setState .spilled) :=
  .of_spilled (offset_le_fill e) rfl

theorem steady_literal (e : Emitter) (value : BitVec 64) : e.Steady (e.literal value) := by
  refine .of_lt ?_
  rw [literal, offset_setState, offset_emit, offset_spill]
  have hsize : 0 < (Instruction.movRegImm rax value).size := Instruction.size_pos (of_decide_eq_true rfl)
  omega

/-- A block keeps the top cell in memory if it leaves it there, or adds code. -/
theorem steady_block {entry exit : CacheState} {body : List Instruction}
    (h : exit = .spilled ∨ entry = .cached ∨ 0 < codeSize body) : e.Steady (e.block entry body exit) := by
  have hoffset := offset_of_code (code_block e entry body exit)
  rw [codeSize_append] at hoffset
  refine ⟨by omega, fun hstate heq => ?_⟩
  rcases h with rfl | rfl | hbody
  · rfl
  · -- the top cell is loaded first
    have hload : codeSize (e.cache.state.settling .cached) = codeSize popTop := by rw [hstate]; rfl
    have hpop : 0 < codeSize popTop := by decide
    omega
  · omega

theorem steady_patch (site target : Nat) (e : Emitter) : e.Steady (endOf (Emitter.patch site target e)) := by
  refine .of_state (Nat.le_of_eq (offset_endOf_patch site target e).symm) ?_
  unfold Emitter.patch
  cases CodeBuffer.patchRel32 site target e.code <;> rfl

theorem steady_branchTo (kind : Branch) (target : Nat) (e : Emitter) : e.Steady (endOf (branchTo kind target e)) :=
  (steady_placeholder e kind).trans (steady_patch (e.branchSite kind) target (e.placeholder kind))

theorem steady_primitive (printNumber : Nat) (p : Primitive) (e : Emitter) :
    e.Steady (endOf (Emitter.primitive printNumber p e)) := by
  have hrecipe : ∀ entry body exit, p.recipe = .block entry body exit →
      exit = .spilled ∨ entry = .cached ∨ 0 < codeSize body := by
    intro entry body exit h
    cases p <;> cases h <;> decide
  unfold Emitter.primitive
  cases h : p.recipe with
  | block entry body exit => exact steady_block (hrecipe entry body exit h)
  | discard =>
    refine .of_spilled ?_ (state_discard e)
    show e.offset ≤ e.discard.offset
    rw [offset_of_code (code_discard e)]
    exact Nat.le_add_right _ _
  | print => exact (steady_spill e).trans (steady_branchTo .call printNumber e.spill)

end Steady

end Emitter

namespace Compiler

/-! ### What is kept from token to token -/

/-- Every open construct expects the top cell in memory, and is part of a definition or of the main program. -/
structure Framed (s : Compiler) : Prop where
  spilled : ∀ frame ∈ s.control, frame.state = .spilled
  inside : s.control ≠ [] → s.current.isSome ∨ s.entry.isSome

section Framed

variable {s t : Compiler} {frame : Frame} {rest : ControlStack}

theorem framed_of_nil (h : s.control = []) : s.Framed :=
  ⟨fun frame hframe => absurd hframe (by rw [h]; exact List.not_mem_nil), fun hne => absurd h hne⟩

theorem Framed.pop (h : s.Framed) (hcontrol : s.control = frame :: rest) :
    frame.state = .spilled ∧ (s.current.isSome ∨ s.entry.isSome) ∧ { s with control := rest }.Framed := by
  have hinside : s.current.isSome ∨ s.entry.isSome := h.inside (by rw [hcontrol]; exact List.cons_ne_nil _ _)
  refine ⟨h.spilled frame (by rw [hcontrol]; exact List.mem_cons_self), hinside,
    ⟨fun other hother => ?_, fun _ => hinside⟩⟩
  exact h.spilled other (by rw [hcontrol]; exact List.mem_cons_of_mem _ hother)

theorem framed_of_cons (hcontrol : s.control = frame :: rest) (hframe : frame.state = .spilled)
    (hrest : ∀ other ∈ rest, other.state = .spilled) (hinside : s.current.isSome ∨ s.entry.isSome) : s.Framed := by
  refine ⟨fun other hother => ?_, fun _ => hinside⟩
  rw [hcontrol] at hother
  rcases List.mem_cons.mp hother with rfl | hother
  · exact hframe
  · exact hrest other hother

/-- Starting the main program keeps what is open, and code that follows is part of a definition or of the main
program. -/
theorem Framed.begun (h : s.Framed) : s.begun.Framed ∧ (s.begun.current.isSome ∨ s.begun.entry.isSome) := by
  unfold Compiler.begun
  split
  · exact ⟨⟨h.spilled, fun _ => .inr rfl⟩, .inr rfl⟩
  · next hstarting =>
    refine ⟨h, ?_⟩
    rw [starting] at hstarting
    cases hcurrent : s.current <;> cases hentry : s.entry <;> simp_all

theorem steady_begun (s : Compiler) : s.toEmitter.Steady s.begun.toEmitter := by
  unfold Compiler.begun
  split
  · exact .of_spilled (Emitter.offset_le_emitBlock _ s.toEmitter) rfl
  · exact .refl _

end Framed

/-! ### Strict and plain actions -/

/-- In the state `s` the strict action does what the plain one does.  It ends in a framed state, and does not fail
where paths meet. -/
structure Agrees {α : Type} (strict plain : Compile α) (s : Compiler) : Prop where
  same : strict s = plain s
  framed : (stateOf (plain s)).Framed
  steady : s.toEmitter.Steady (stateOf (plain s)).toEmitter
  fails : ∀ {e : Error} {t : Compiler}, plain s = .error e t → e.isMismatch = false

section Rules

variable {α β : Type} {s t : Compiler} {f g : α → Compile β}

theorem agrees_ok {strict plain : Compile α} {a : α} (hstrict : strict s = .ok a t) (hplain : plain s = .ok a t)
    (hframed : t.Framed) (hsteady : s.toEmitter.Steady t.toEmitter) : Agrees strict plain s := by
  refine ⟨hstrict.trans hplain.symm, ?_, ?_, fun herror => ?_⟩
  · rwa [hplain]
  · rwa [hplain]
  · rw [hplain] at herror
    cases herror

theorem agrees_error {strict plain : Compile α} {e : Error} (hstrict : strict s = .error e t)
    (hplain : plain s = .error e t)
    (hframed : t.Framed) (hsteady : s.toEmitter.Steady t.toEmitter) (he : e.isMismatch = false) :
    Agrees strict plain s := by
  refine ⟨hstrict.trans hplain.symm, ?_, ?_, fun herror => ?_⟩
  · rwa [hplain]
  · rwa [hplain]
  · rw [hplain] at herror
    cases herror
    exact he

theorem agrees_throw {e : Error} (h : s.Framed) (he : e.isMismatch = false) :
    Agrees (throw e : Compile α) (throw e) s :=
  agrees_error rfl rfl h (.refl _) he

theorem Agrees.congr {strict strict' plain plain' : Compile α} (h : Agrees strict' plain' s)
    (hstrict : strict s = strict' s) (hplain : plain s = plain' s) : Agrees strict plain s := by
  refine ⟨by rw [hstrict, hplain, h.same], ?_, ?_, fun herror => h.fails (hplain.symm.trans herror)⟩
  · rw [hplain]
    exact h.framed
  · rw [hplain]
    exact h.steady

theorem Agrees.bind_ok {m n : Compile α} {a : α} (hm : m s = .ok a t) (hn : n s = .ok a t)
    (hsteady : s.toEmitter.Steady t.toEmitter) (h : Agrees (f a) (g a) t) : Agrees (m >>= f) (n >>= g) s := by
  have hbind : ∀ {m : Compile α} {f : α → Compile β}, m s = .ok a t → (m >>= f) s = f a t := by
    intro m f hm
    show EStateM.bind m f s = _
    rw [EStateM.bind, hm]
  refine ⟨?_, ?_, ?_, fun herror => ?_⟩
  · rw [hbind hm, hbind hn, h.same]
  · rw [hbind hn]
    exact h.framed
  · rw [hbind hn]
    exact hsteady.trans h.steady
  · rw [hbind hn] at herror
    exact h.fails herror

theorem Agrees.bind_error {m n : Compile α} {e : Error} (hm : m s = .error e t) (hn : n s = .error e t)
    (hframed : t.Framed) (hsteady : s.toEmitter.Steady t.toEmitter) (he : e.isMismatch = false) :
    Agrees (m >>= f) (n >>= g) s := by
  have hbind : ∀ {m : Compile α} {f : α → Compile β}, m s = .error e t → (m >>= f) s = .error e t := by
    intro m f hm
    show EStateM.bind m f s = _
    rw [EStateM.bind, hm]
  exact agrees_error (hbind hm) (hbind hn) hframed hsteady he

/-! ### Basic actions -/

theorem agrees_get {f g : Compiler → Compile β} (h : Agrees (f s) (g s) s) : Agrees (get >>= f) (get >>= g) s :=
  .bind_ok rfl rfl (.refl _) h

theorem agrees_modify {change : Compiler → Compiler} {f g : PUnit → Compile β}
    (hcode : (change s).toEmitter = s.toEmitter)
    (h : Agrees (f ()) (g ()) (change s)) : Agrees (modify change >>= f) (modify change >>= g) s :=
  .bind_ok rfl rfl (by rw [hcode]; exact .refl _) h

theorem agrees_emitting {change : Emitter → Emitter} {f g : Unit → Compile β}
    (hsteady : s.toEmitter.Steady (change s.toEmitter))
    (h : Agrees (f ()) (g ()) { s with toEmitter := change s.toEmitter }) :
    Agrees (emitting change >>= f) (emitting change >>= g) s :=
  .bind_ok rfl rfl hsteady h

theorem agrees_beginCode {f g : Unit → Compile β} (h : Agrees (f ()) (g ()) s.begun) :
    Agrees (beginCode >>= f) (beginCode >>= g) s := by
  have hbegin : beginCode s = .ok () s.begun := by
    rw [← bind_pure beginCode, beginCode_bind_apply]
    rfl
  exact .bind_ok hbegin hbegin (steady_begun s) h

/-- A check of the strict action that passes. -/
theorem agrees_check {pos : Position} {f : Unit → Compile β} {n : Compile β} (hstate : s.cache.state = .spilled)
    (h : Agrees (f ()) n s) : Agrees (checkMerge .spilled pos >>= f) n s := by
  have hcheck : (checkMerge .spilled pos >>= f) s = f () s := by
    simp [checkMerge, get_bind_apply, hstate]
  exact ⟨hcheck.trans h.same, h.framed, h.steady, h.fails⟩

/-- A check of the plain action that passes. -/
theorem agrees_checkMerge {pos : Position} {expected : CacheState} {m : Compile β} {g : Unit → Compile β}
    (hstate : s.cache.state = expected) (h : Agrees m (g ()) s) : Agrees m (checkMerge expected pos >>= g) s := by
  have hcheck : (checkMerge expected pos >>= g) s = g () s := by
    simp [checkMerge, get_bind_apply, hstate]
  refine ⟨h.same.trans hcheck.symm, ?_, ?_, fun herror => h.fails (hcheck ▸ herror)⟩
  · rw [hcheck]
    exact h.framed
  · rw [hcheck]
    exact h.steady

theorem agrees_leave {pos : Position} {kind : Branch} {f g : Nat → Compile β} (hstate : s.cache.state = .spilled)
    (h : Agrees (f (s.branchSite kind)) (g (s.branchSite kind)) { s with toEmitter := s.toEmitter.placeholder kind }) :
    Agrees (leave pos kind >>= f) (placeholder kind >>= g) s := by
  rw [leave, bind_assoc]
  exact agrees_check hstate (.bind_ok rfl rfl (Emitter.steady_placeholder _ kind) h)

theorem agrees_arrive {pos : Position} {f g : Nat → Compile β} (hstate : s.cache.state = .spilled)
    (h : Agrees (f s.offset) (g s.offset) s) : Agrees (arrive pos >>= f) (here >>= g) s := by
  rw [arrive, bind_assoc]
  exact agrees_check hstate (.bind_ok rfl rfl (.refl _) h)

theorem agrees_ite {c : Prop} [Decidable c] {m m' n n' : Compile β} (hm : c → Agrees m m' s) (hn : ¬c → Agrees n n' s) :
    Agrees (if c then m else n) (if c then m' else n') s := by
  split
  · exact hm ‹_›
  · exact hn ‹_›

theorem agrees_emitter {action : Emit α} (hframed : s.Framed)
    (hsteady : s.toEmitter.Steady (Emitter.endOf (action s.toEmitter)))
    (hfails : ∀ {error : Error} {e : Emitter}, action s.toEmitter = .error error e → ∃ site, error = .patch site)
    (h : ∀ a e, action s.toEmitter = .ok a e → Agrees (f a) (g a) { s with toEmitter := e }) :
    Agrees (emitter action >>= f) (emitter action >>= g) s := by
  cases haction : action s.toEmitter with
  | ok a e =>
    have hrun : emitter action s = .ok a { s with toEmitter := e } := by rw [emitter, haction]
    rw [haction] at hsteady
    exact .bind_ok hrun hrun hsteady (h a e haction)
  | error error e =>
    have hrun : emitter action s = .error error { s with toEmitter := e } := by rw [emitter, haction]
    rw [haction] at hsteady
    obtain ⟨site, rfl⟩ := hfails haction
    exact .bind_error hrun hrun ⟨hframed.spilled, hframed.inside⟩ hsteady rfl

theorem agrees_leaveTo {pos : Position} {kind : Branch} {target : Nat} {f g : Unit → Compile β} (hframed : s.Framed)
    (hstate : s.cache.state = .spilled)
    (h : ∀ e : Emitter, e.cache.state = .spilled → Agrees (f ()) (g ()) { s with toEmitter := e }) :
    Agrees (leaveTo pos kind target >>= f) (emitter (Emitter.branchTo kind target) >>= g) s := by
  rw [leaveTo, bind_assoc]
  refine agrees_check hstate (agrees_emitter hframed (Emitter.steady_branchTo kind target s.toEmitter)
    (fun h => ⟨_, Emitter.error_of_branchTo h⟩) fun a e hrun => h e ?_)
  rw [Emitter.branchTo_ok hrun]
  exact hstate

theorem agrees_leaveTo_last {pos : Position} {kind : Branch} {target : Nat} (hframed : s.Framed)
    (hstate : s.cache.state = .spilled) :
    Agrees (leaveTo pos kind target) (emitter (Emitter.branchTo kind target)) s := by
  rw [← bind_pure (leaveTo pos kind target), ← bind_pure (emitter (Emitter.branchTo kind target))]
  exact agrees_leaveTo hframed hstate fun e _ => agrees_ok rfl rfl ⟨hframed.spilled, hframed.inside⟩ (.refl _)

theorem agrees_patch {site target : Nat} {f g : Unit → Compile β} (hframed : s.Framed)
    (h : ∀ (code : CodeBuffer) (stats : Statistics), code.offset = s.offset →
      Agrees (f ()) (g ()) { s with code := code, stats := stats }) :
    Agrees (patch site target >>= f) (patch site target >>= g) s := by
  rw [patch, bind_assoc, bind_assoc]
  refine agrees_emitter hframed (Emitter.steady_patch site target s.toEmitter) (fun h => ⟨_, Emitter.error_of_patch h⟩)
    fun a e hrun => ?_
  unfold Emitter.patch at hrun
  split at hrun <;> cases hrun
  next _ code hcode =>
    have hoffset : code.offset = s.offset := CodeBuffer.offset_of_patch (CodeBuffer.patch_of_patchRel32 hcode)
    exact .bind_ok rfl rfl (.refl _) (h code _ hoffset)

theorem agrees_patchHere {site : Nat} {f g : Unit → Compile β} (hframed : s.Framed)
    (h : ∀ (code : CodeBuffer) (stats : Statistics) (log : Array Event), code.offset = s.offset →
      Agrees (f ()) (g ()) { s with code := code, stats := stats, log := log }) :
    Agrees (patchHere site >>= f) (patchHere site >>= g) s := by
  simp only [patchHere, bind_assoc]
  exact .bind_ok rfl rfl (.refl _) <| agrees_patch hframed fun code stats hoffset =>
    .bind_ok rfl rfl (.refl _) (h code stats _ hoffset)

theorem agrees_arriveFrom {pos : Position} {site : Nat} {f g : Unit → Compile β} (hframed : s.Framed)
    (hstate : s.cache.state = .spilled)
    (h : ∀ (code : CodeBuffer) (stats : Statistics) (log : Array Event), code.offset = s.offset →
      Agrees (f ()) (g ()) { s with code := code, stats := stats, log := log }) :
    Agrees (arriveFrom pos site >>= f) (patchHere site >>= g) s := by
  rw [arriveFrom, bind_assoc]
  exact agrees_check hstate (agrees_patchHere hframed h)

theorem agrees_arriveFrom_last {pos : Position} {site : Nat} (hframed : s.Framed) (hstate : s.cache.state = .spilled) :
    Agrees (arriveFrom pos site) (patchHere site) s := by
  rw [← bind_pure (arriveFrom pos site), ← bind_pure (patchHere site)]
  refine agrees_arriveFrom hframed hstate fun code stats log hoffset =>
    agrees_ok rfl rfl ⟨hframed.spilled, hframed.inside⟩ ?_
  exact .of_state (Nat.le_refl _) rfl

theorem agrees_popFor {word : String} {pos : Position} {select : Construct → Option α} {f g : α × Frame → Compile β}
    (hframed : s.Framed)
    (h : ∀ a frame rest, s.control = frame :: rest → Agrees (f (a, frame)) (g (a, frame)) { s with control := rest }) :
    Agrees (popFor word pos select >>= f) (popFor word pos select >>= g) s := by
  cases hrun : popFor word pos select s with
  | ok taken t =>
    obtain ⟨a, frame⟩ := taken
    obtain ⟨rest, hcontrol, -, rfl⟩ := popFor_ok hrun
    exact .bind_ok hrun hrun (.refl _) (h a frame rest hcontrol)
  | error e t =>
    rw [popFor, get_bind_apply] at hrun
    cases hpop : s.control.popFor word pos select with
    | ok taken =>
      rw [hpop] at hrun
      cases hrun
    | error e' =>
      rw [hpop] at hrun
      cases hrun
      have hmismatch : e.isMismatch = false := by
        unfold ControlStack.popFor at hpop
        split at hpop
        · cases hpop
          rfl
        · split at hpop <;> cases hpop
          rfl
      have hfail : popFor word pos select s = .error e s := by
        rw [popFor, get_bind_apply, hpop]
        rfl
      exact .bind_error hfail hfail hframed (.refl _) hmismatch

theorem agrees_popBegin {word : String} {pos : Position} {f g : Nat × CacheState → Compile β} (hframed : s.Framed)
    (h : ∀ target frame rest, s.control = frame :: rest →
      Agrees (f (target, frame.state)) (g (target, frame.state)) { s with control := rest }) :
    Agrees (popBegin word pos >>= f) (popBegin word pos >>= g) s := by
  rw [popBegin, bind_assoc, bind_assoc]
  exact agrees_popFor hframed h

theorem agrees_popDo {word : String} {pos : Position} {f g : Nat × CacheState → Compile β} (hframed : s.Framed)
    (h : ∀ body frame rest, s.control = frame :: rest →
      Agrees (f (body, frame.state)) (g (body, frame.state)) { s with control := rest }) :
    Agrees (popDo word pos >>= f) (popDo word pos >>= g) s := by
  rw [popDo, bind_assoc, bind_assoc]
  exact agrees_popFor hframed h

end Rules

/-! ### Keywords -/

section Keywords

variable {s : Compiler} {token : Token}

theorem steady_testFlag (e : Emitter) : e.Steady ((e.fill.emit (.test rax rax)).setState .spilled) := by
  refine .of_spilled ?_ rfl
  rw [Emitter.offset_setState, Emitter.offset_emit, Emitter.offset_fill]
  omega

theorem steady_return (e : Emitter) : e.Steady (e.spill.emit .ret) :=
  (Emitter.steady_spill e).trans (Emitter.steady_emitBlock e.spill [.ret])

theorem agrees_if (h : s.Framed) : Agrees (strictKeyword token .«if») (compileIf token.pos) s :=
  agrees_beginCode <| agrees_emitting (steady_testFlag _) <| agrees_leave rfl <| agrees_get <|
    agrees_ok rfl rfl (framed_of_cons rfl rfl h.begun.1.spilled h.begun.2) (.refl _)

theorem agrees_else (h : s.Framed) : Agrees (strictKeyword token .«else») (compileElse token.pos) s := by
  refine agrees_popFor h fun site frame rest hcontrol => ?_
  obtain ⟨hstate, hinside, hrest⟩ := h.pop hcontrol
  refine agrees_emitting (Emitter.steady_spill _) <| agrees_get <| agrees_leave (Emitter.state_spill _) <|
    agrees_patchHere ⟨hrest.spilled, hrest.inside⟩ fun code stats log _ =>
    agrees_emitting ?_ <| agrees_check hstate <| agrees_ok rfl rfl ?_ (.refl _)
  · exact .of_spilled (Nat.le_refl _) hstate
  · exact framed_of_cons rfl (Emitter.state_spill s.toEmitter) hrest.spilled hinside

theorem agrees_then (h : s.Framed) : Agrees (strictKeyword token .«then») (compileThen token.pos) s := by
  refine agrees_popFor h fun site frame rest hcontrol => ?_
  obtain ⟨hstate, -, hrest⟩ := h.pop hcontrol
  have hspill : s.spill.cache.state = .spilled := Emitter.state_spill _
  exact agrees_emitting (Emitter.steady_spill _) <| agrees_checkMerge (hspill.trans hstate.symm) <|
    agrees_arriveFrom_last ⟨hrest.spilled, hrest.inside⟩ hspill

theorem agrees_begin (h : s.Framed) : Agrees (strictKeyword token .«begin») (compileBegin token.pos) s := by
  refine agrees_beginCode <| agrees_emitting (Emitter.steady_spill _) <| agrees_arrive (Emitter.state_spill _) <|
    agrees_get <| agrees_ok rfl rfl ?_ (.refl _)
  exact framed_of_cons rfl (Emitter.state_spill s.begun.toEmitter) h.begun.1.spilled h.begun.2

theorem agrees_until (h : s.Framed) : Agrees (strictKeyword token .«until») (compileUntil token.pos) s := by
  refine agrees_popBegin h fun target frame rest hcontrol => ?_
  obtain ⟨hstate, -, hrest⟩ := h.pop hcontrol
  exact agrees_emitting (steady_testFlag _) <| agrees_checkMerge hstate.symm <|
    agrees_leaveTo_last ⟨hrest.spilled, hrest.inside⟩ rfl

theorem agrees_again (h : s.Framed) : Agrees (strictKeyword token .again) (compileAgain token.pos) s := by
  refine agrees_popBegin h fun target frame rest hcontrol => ?_
  obtain ⟨hstate, -, hrest⟩ := h.pop hcontrol
  have hspill : s.spill.cache.state = .spilled := Emitter.state_spill _
  exact agrees_emitting (Emitter.steady_spill _) <| agrees_checkMerge (hspill.trans hstate.symm) <|
    agrees_leaveTo_last ⟨hrest.spilled, hrest.inside⟩ hspill

theorem agrees_while (h : s.Framed) : Agrees (strictKeyword token .«while») (compileWhile token.pos) s := by
  refine agrees_popBegin h fun target frame rest hcontrol => ?_
  obtain ⟨hstate, hinside, hrest⟩ := h.pop hcontrol
  exact agrees_emitting (steady_testFlag _) <| agrees_leave rfl <|
    agrees_ok rfl rfl (framed_of_cons rfl hstate hrest.spilled hinside) (.refl _)

theorem agrees_repeat (h : s.Framed) : Agrees (strictKeyword token .«repeat») (compileRepeat token.pos) s := by
  refine agrees_popFor h fun places frame rest hcontrol => ?_
  obtain ⟨target, site⟩ := places
  obtain ⟨hstate, -, hrest⟩ := h.pop hcontrol
  have hspill : s.spill.cache.state = .spilled := Emitter.state_spill _
  exact agrees_emitting (Emitter.steady_spill _) <| agrees_checkMerge (hspill.trans hstate.symm) <|
    agrees_leaveTo ⟨hrest.spilled, hrest.inside⟩ hspill fun e he =>
    agrees_arriveFrom_last ⟨hrest.spilled, hrest.inside⟩ he

theorem agrees_do (h : s.Framed) : Agrees (strictKeyword token .«do») (compileDo token.pos) s := by
  refine agrees_beginCode <| agrees_emitting ?_ <| agrees_arrive rfl <| agrees_get <| agrees_ok rfl rfl ?_ (.refl _)
  · refine .of_spilled ?_ rfl
    rw [Emitter.offset_setState, Emitter.offset_emitBlock, Emitter.offset_fill]
    omega
  · exact framed_of_cons rfl rfl h.begun.1.spilled h.begun.2

theorem agrees_loop (h : s.Framed) : Agrees (strictKeyword token .loop) (compileLoop token.pos) s := by
  refine agrees_popDo h fun body frame rest hcontrol => ?_
  obtain ⟨hstate, -, hrest⟩ := h.pop hcontrol
  have hspill : s.spill.cache.state = .spilled := Emitter.state_spill _
  exact agrees_emitting (Emitter.steady_spill _) <| agrees_checkMerge (hspill.trans hstate.symm) <|
    agrees_emitting (Emitter.steady_emitBlock _ stepByOne) <|
    agrees_leaveTo ⟨hrest.spilled, hrest.inside⟩ (by rw [Emitter.cache_emitBlock]; exact hspill) fun e _ =>
    agrees_ok rfl rfl ⟨hrest.spilled, hrest.inside⟩ (Emitter.steady_emitBlock e [dropLoop])

theorem agrees_plusLoop (h : s.Framed) : Agrees (strictKeyword token .plusLoop) (compilePlusLoop token.pos) s := by
  refine agrees_popDo h fun body frame rest hcontrol => ?_
  obtain ⟨hstate, -, hrest⟩ := h.pop hcontrol
  exact agrees_emitting (Emitter.steady_fill_setState _) <| agrees_checkMerge hstate.symm <|
    agrees_emitting (Emitter.steady_emitBlock _ stepByTop) <| agrees_leave (by rw [Emitter.cache_emitBlock]; rfl) <|
    agrees_emitting (Emitter.steady_emitBlock _ compareLimit) <|
    agrees_leaveTo ⟨hrest.spilled, hrest.inside⟩
      (by rw [Emitter.cache_emitBlock, Emitter.cache_placeholder, Emitter.cache_emitBlock]; rfl) fun e he =>
    agrees_arriveFrom ⟨hrest.spilled, hrest.inside⟩ he fun code stats log _ =>
    agrees_ok rfl rfl ⟨hrest.spilled, hrest.inside⟩ (Emitter.steady_emitBlock { e with code } [dropLoop])

theorem agrees_semicolon (h : s.Framed) : Agrees (strictKeyword token .semicolon) (endDefinition token.pos) s := by
  refine agrees_get ?_
  cases s.current with
  | none => exact agrees_throw h rfl
  | some definition =>
    dsimp only
    cases hclosed : s.control.ensureClosed with
    | error e =>
      have he : e.isMismatch = false := by
        unfold ControlStack.ensureClosed at hclosed
        split at hclosed <;> cases hclosed
        rfl
      exact .bind_error rfl rfl h (.refl _) he
    | ok _ =>
      have hcontrol := ControlStack.ensureClosed_eq_ok_iff.mp hclosed
      refine .bind_ok rfl rfl (.refl _) <| agrees_ite (fun _ => .bind_ok rfl rfl (.refl _) ?_) fun _ => ?_
      -- Noted or not, the end is the same.
      all_goals
        refine agrees_modify rfl <| agrees_emitting (steady_return _) ?_
        cases definition.skipSite with
        | none => exact agrees_modify rfl <| agrees_ok rfl rfl (framed_of_nil hcontrol) (.refl _)
        | some site =>
          exact agrees_arrive (Emitter.state_spill _) <| agrees_patch (framed_of_nil hcontrol) fun code stats hoffset =>
            agrees_modify rfl <| agrees_ok rfl rfl (framed_of_nil hcontrol) (.refl _)

theorem agrees_recurse (h : s.Framed) : Agrees (strictKeyword token .recurse) (compileRecurse token) s := by
  refine agrees_get ?_
  cases s.current with
  | none => exact agrees_throw h rfl
  | some definition =>
    exact agrees_emitting (Emitter.steady_spill _) <|
      agrees_leaveTo ⟨h.spilled, h.inside⟩ (Emitter.state_spill _) fun e _ =>
      agrees_ok rfl rfl ⟨h.spilled, h.inside⟩ (.refl _)

theorem agrees_loopIndex (h : s.Framed) (word : String) (depth : Nat) (pos : Position) :
    Agrees (compileLoopIndex word depth pos) (compileLoopIndex word depth pos) s := by
  have hsize : 0 < (Instruction.load rax ⟨rsp, BitVec.ofNat 32 (16 * depth)⟩).size :=
    Instruction.size_pos (of_decide_eq_true rfl)
  refine agrees_get <| agrees_ite (fun _ => .bind_error rfl rfl h (.refl _) rfl) fun _ =>
    agrees_ok rfl rfl ⟨h.spilled, h.inside⟩ (Emitter.steady_block (.inr (.inr ?_)))
  rw [codeSize_cons]
  omega

theorem agrees_unloop (h : s.Framed) : Agrees (compileUnloop token.pos) (compileUnloop token.pos) s :=
  agrees_get <| agrees_ite (fun _ => .bind_error rfl rfl h (.refl _) rfl) fun _ =>
    agrees_emitting (Emitter.steady_emitBlock _ _) <| agrees_ok rfl rfl ⟨h.spilled, h.inside⟩ (.refl _)

theorem agrees_exit (h : s.Framed) : Agrees (compileExit token) (compileExit token) s :=
  agrees_get <| agrees_ite (fun _ => .bind_error rfl rfl h (.refl _) rfl) fun _ =>
    agrees_emitting (Emitter.steady_spill _) <| agrees_emitting (Emitter.steady_emitBlock _ _) <|
    agrees_modify rfl <| agrees_ok rfl rfl ⟨h.spilled, h.inside⟩ (Emitter.steady_emitBlock _ _)

/-- **Keywords.** -/
theorem agrees_keyword (h : s.Framed) (k : Keyword) : Agrees (strictKeyword token k) (compileKeyword token k) s := by
  cases k with
  | colon => exact agrees_throw h rfl
  | «variable» => exact agrees_throw h rfl
  | semicolon => exact agrees_semicolon h
  | «if» => exact agrees_if h
  | «else» => exact agrees_else h
  | «then» => exact agrees_then h
  | «begin» => exact agrees_begin h
  | «until» => exact agrees_until h
  | again => exact agrees_again h
  | «while» => exact agrees_while h
  | «repeat» => exact agrees_repeat h
  | «do» => exact agrees_do h
  | loop => exact agrees_loop h
  | plusLoop => exact agrees_plusLoop h
  | loopIndex => exact agrees_loopIndex h ..
  | outerLoopIndex => exact agrees_loopIndex h ..
  | unloop => exact agrees_unloop h
  | exit => exact agrees_exit h
  | recurse => exact agrees_recurse h

end Keywords

/-! ### Items -/

section Items

variable {β : Type} {s : Compiler} {token : Token} {index : Nat}

/-- Waiting calls are led to the start of a definition. -/
theorem agrees_resolveCalls {name : String} {target : Nat} {sites : List Nat} {f g : Unit → Compile β}
    (hframed : s.Framed)
    (h : ∀ (code : CodeBuffer) (stats : Statistics) (log : Array Event), code.offset = s.offset →
      Agrees (f ()) (g ()) { s with code := code, stats := stats, log := log }) :
    Agrees (resolveCalls name target sites >>= f) (resolveCalls name target sites >>= g) s := by
  induction sites generalizing s with
  | nil => exact h s.code s.stats s.log rfl
  | cons site sites ih =>
    simp only [resolveCalls, bind_assoc]
    refine agrees_patch hframed fun code stats hoffset => .bind_ok rfl rfl (.refl _) <|
      ih ⟨hframed.spilled, hframed.inside⟩ fun code' stats' log' hoffset' => ?_
    exact h code' stats' log' (hoffset'.trans hoffset)

theorem agrees_skip {pos : Position} {f g : Option Nat → Compile β}
    (h : ∀ site (e : Emitter), Agrees (f site) (g site) { s with toEmitter := e }) :
    Agrees (strictSkip pos >>= f) (skipDefinition >>= g) s := by
  simp only [strictSkip, skipDefinition, bind_assoc]
  refine agrees_get ?_
  cases s.entry.isSome with
  | false => exact h none s.toEmitter
  | true =>
    simp only [if_true, bind_assoc]
    exact agrees_emitting (Emitter.steady_spill _) <| agrees_leave (Emitter.state_spill _) <| h _ _

theorem agrees_define (h : s.Framed) (name : Token) (pos : Position) :
    Agrees (strictDefine name pos) (beginDefinition name pos) s := by
  refine agrees_get <| agrees_ite (fun _ => .bind_error rfl rfl h (.refl _) rfl) fun hopen => ?_
  have hcontrol : s.control = [] := Decidable.byContradiction fun hne => hopen (.inr hne)
  refine agrees_skip fun site e => agrees_emitting (.of_spilled (Nat.le_refl _) rfl) ?_
  obtain ⟨log, hnote⟩ := exists_noteOlderMeaning name { s with toEmitter := e.setState .spilled }
  exact .bind_ok hnote hnote (.refl _) <| agrees_arrive rfl <| agrees_get <| agrees_modify rfl <| agrees_get <|
    agrees_modify rfl <| agrees_resolveCalls (framed_of_nil hcontrol) fun code stats log' _ =>
    .bind_ok rfl rfl (.refl _) <| agrees_ok rfl rfl (framed_of_nil hcontrol) (.refl _)

theorem agrees_variable (h : s.Framed) (name : Token) (pos : Position) :
    Agrees (defineVariable name pos) (defineVariable name pos) s :=
  agrees_get <| agrees_ite
    (fun _ => .bind_ok rfl rfl (.refl _) <| agrees_modify rfl <| agrees_ok rfl rfl ⟨h.spilled, h.inside⟩ (.refl _))
    fun _ => agrees_modify rfl <| agrees_ok rfl rfl ⟨h.spilled, h.inside⟩ (.refl _)

theorem agrees_number (h : s.Framed) (literal : Literal) :
    Agrees (compileNumber token literal) (compileNumber token literal) s := by
  cases literal with
  | outOfRange => exact agrees_throw h rfl
  | cell value =>
    exact agrees_beginCode <| agrees_emitting (Emitter.steady_literal _ value) <|
      agrees_ok rfl rfl ⟨h.begun.1.spilled, h.begun.1.inside⟩ (.refl _)

theorem agrees_primitive (h : s.Framed) (p : Primitive) : Agrees (compilePrimitive p) (compilePrimitive p) s :=
  agrees_beginCode <| agrees_get <|
    agrees_emitter h.begun.1 (Emitter.steady_primitive ..) (fun h => ⟨_, Emitter.error_of_primitive h⟩) fun _ _ _ =>
    agrees_modify rfl <| agrees_ok rfl rfl ⟨h.begun.1.spilled, h.begun.1.inside⟩ (.refl _)

theorem agrees_call (h : s.Framed) (pos : Position) (offset : Nat) :
    Agrees (strictCall pos offset) (compileMeaning (.code offset)) s :=
  agrees_beginCode <| agrees_emitting (Emitter.steady_spill _) <|
    agrees_leaveTo ⟨h.begun.1.spilled, h.begun.1.inside⟩ (Emitter.state_spill _) fun _ _ =>
    agrees_ok rfl rfl ⟨h.begun.1.spilled, h.begun.1.inside⟩ (.refl _)

theorem agrees_forwardCall (h : s.Framed) : Agrees (strictForwardCall token) (compileForwardCall token) s :=
  agrees_beginCode <| agrees_emitting (Emitter.steady_spill _) <| agrees_leave (Emitter.state_spill _) <|
    agrees_modify rfl <| agrees_ok rfl rfl ⟨h.begun.1.spilled, h.begun.1.inside⟩ (.refl _)

theorem agrees_address (h : s.Framed) (address : UInt64) :
    Agrees (compileMeaning (.cell address)) (compileMeaning (.cell address)) s :=
  agrees_beginCode <| agrees_ok rfl rfl ⟨h.begun.1.spilled, h.begun.1.inside⟩ (Emitter.steady_literal _ _)

/-- **Plain words.** -/
theorem agrees_word (h : s.Framed) : Agrees (strictWord token index) (compileWord token index) s := by
  have hplain : compileWord token index s = _ := compileWord_eq s
  have hstrict : strictWord token index s = (match s.resolve token index with
      | some (.defined (.code offset)) => strictCall token.pos offset
      | some .later => strictForwardCall token
      | _ => compileWord token index) s := rfl
  cases hresolve : s.resolve token index with
  | none =>
    rw [hresolve] at hplain hstrict
    exact agrees_error (hstrict.trans hplain) hplain h (.refl _) rfl
  | some reference =>
    rw [hresolve] at hplain hstrict
    cases reference with
    | primitive p => exact (agrees_primitive h p).congr (hstrict.trans hplain) hplain
    | nothing => exact agrees_ok (hstrict.trans hplain) hplain ⟨h.spilled, h.inside⟩ (.refl _)
    | later => exact (agrees_forwardCall h).congr hstrict hplain
    | defined meaning =>
      cases meaning with
      | code offset => exact (agrees_call h token.pos offset).congr hstrict hplain
      | cell address => exact (agrees_address h address).congr (hstrict.trans hplain) hplain

/-- **One item.** -/
theorem agrees_item (h : s.Framed) (item : Item) : Agrees (strictItem item) (compileItem item) s := by
  have hmet : ∀ token, (s.met token).Framed := fun _ => ⟨h.spilled, h.inside⟩
  cases item with
  | define colon name index => exact .bind_ok rfl rfl (.refl _) (agrees_define (hmet colon) name colon.pos)
  | «variable» word name index => exact .bind_ok rfl rfl (.refl _) (agrees_variable (hmet word) name word.pos)
  | keyword k token index => exact .bind_ok rfl rfl (.refl _) (agrees_keyword (hmet token) k)
  | number literal token index => exact .bind_ok rfl rfl (.refl _) (agrees_number (hmet token) literal)
  | word token index => exact .bind_ok rfl rfl (.refl _) (agrees_word (hmet token))

/-- **Several items**, up to the first that fails. -/
theorem agrees_items (h : s.Framed) (items : List Item) :
    Agrees (items.forM strictItem) (items.forM compileItem) s := by
  induction items generalizing s with
  | nil => exact agrees_ok rfl rfl h (.refl _)
  | cons item items ih =>
    have hitem := agrees_item h item
    have hframed := hitem.framed
    have hsteady := hitem.steady
    cases hrun : compileItem item s with
    | ok u t =>
      rw [hrun] at hframed hsteady
      exact .bind_ok (hitem.same.trans hrun) hrun hsteady (ih hframed)
    | error e t =>
      rw [hrun] at hframed hsteady
      exact .bind_error (hitem.same.trans hrun) hrun hframed hsteady (hitem.fails hrun)

theorem agrees_tokens (h : s.Framed) (tokens : List Token) : Agrees (strictTokens tokens) (compileTokens tokens) s := by
  have hplain := compileTokens_eq tokens s
  have hstrict : strictTokens tokens s = (items tokens).forM strictItem (s.heard tokens) := rfl
  obtain ⟨headers, hheard⟩ := s.exists_heard_eq tokens
  rw [hheard] at hplain hstrict
  have hitems :=
    agrees_items (s := { s with forward := { s.forward with headers } }) ⟨h.spilled, h.inside⟩ (items tokens)
  refine ⟨?_, ?_, ?_, fun herror => hitems.fails (hplain.symm.trans herror)⟩
  · rw [hstrict, hplain, hitems.same]
  · rw [hplain]
    exact hitems.framed
  · rw [hplain]
    exact hitems.steady

theorem framed_reached (options : Options) (chunks : List (List Token)) : (reached options chunks).Framed := by
  have hrun : ∀ s : Compiler, s.Framed → (chunks.foldl fed s).Framed := by
    induction chunks with
    | nil => exact fun s h => h
    | cons tokens chunks ih => exact fun s h => ih _ (agrees_tokens h tokens).framed
  exact hrun _ (framed_of_nil rfl)

end Items

/-! ### The end of a program -/

/-- The end of a program is not a place where paths meet. -/
theorem isMismatch_of_finish {s t : Compiler} {e : Error} (h : finish s = .error e t) : e.isMismatch = false := by
  cases hcomplete : s.ensureComplete with
  | error e' =>
    rw [finish, get_bind_apply, hcomplete] at h
    obtain rfl : e' = e := (EStateM.Result.error.inj h).1
    rw [ensureComplete] at hcomplete
    cases hcurrent : s.current <;> cases hcontrol : s.control <;> cases hfirst : s.forward.first? <;>
      simp only [hcurrent, hcontrol, hfirst, ControlStack.ensureClosed] at hcomplete <;> cases hcomplete <;> rfl
  | ok _ =>
    rw [finish_eq_of_complete hcomplete] at h
    rcases Compilation.build_error h with ⟨-, rfl⟩ | ⟨-, hlayout⟩
    · rfl
    · rw [Layout.ofOptions] at hlayout
      split at hlayout <;> cases hlayout
      rfl

end Compiler

open Compiler

theorem isMismatch_of_compile {source : String} {options : Options} {e : Error}
    (h : compile source options = .error e) : e.isMismatch = false := by
  rcases error_of_compile h with hlexed | ⟨fault, rfl⟩ | ⟨tokens, t, -, hprogram⟩
  · obtain ⟨pos, rfl⟩ := error_of_tokenizeOnto hlexed
    rfl
  · rfl
  · rcases bind_eq_error hprogram with hrun | ⟨_, s, -, hfinish⟩
    · exact (agrees_tokens (framed_of_nil rfl) tokens).fails hrun
    · exact isMismatch_of_finish hfinish

/-- **Where paths meet, the top cell is in memory.**  In every state that is reached, whether or not the lists of
tokens in front of it compile, the open constructs expect the top cell in memory, inside of a definition or of the
main program.  The stricter compiler, with the top cell in memory at both ends of every branch, does what the compiler
does, and a place where it is in memory stays such a place until code is added.  So no check fails. -/
theorem merges_spilled (options : Options) (chunks : List (List Token)) :
    ((∀ frame ∈ (reached options chunks).control, frame.state = .spilled) ∧
      ((reached options chunks).control ≠ [] →
        (reached options chunks).current.isSome ∨ (reached options chunks).entry.isSome)) ∧
    (∀ tokens, strictTokens tokens (reached options chunks) = compileTokens tokens (reached options chunks) ∧
      (reached options chunks).toEmitter.Steady (reached options (chunks ++ [tokens])).toEmitter) ∧
    (∀ tokens t pos expected found,
      compileTokens tokens (reached options chunks) ≠ .error (.cacheMismatch pos expected found) t) ∧
    (∀ t pos expected found, finish (reached options chunks) ≠ .error (.cacheMismatch pos expected found) t) ∧
    ∀ source pos expected found, compile source options ≠ .error (.cacheMismatch pos expected found) := by
  have hframed := framed_reached options chunks
  refine ⟨⟨hframed.spilled, hframed.inside⟩, fun tokens => ⟨(agrees_tokens hframed tokens).same, ?_⟩,
    fun tokens t pos expected found hrun => ?_, fun t pos expected found hfinish => ?_,
    fun source pos expected found h => ?_⟩
  · have hsteady := (agrees_tokens hframed tokens).steady
    have hnext : reached options (chunks ++ [tokens]) = stateOf (compileTokens tokens (reached options chunks)) := by
      rw [reached, List.foldl_append]
      rfl
    rwa [hnext]
  · cases (agrees_tokens hframed tokens).fails hrun
  · cases isMismatch_of_finish hfinish
  · cases isMismatch_of_compile h

end ForthElf
