import ForthElf.Proofs.Compilation

/-!
# Properties of all actions

A property of actions that holds of the basic ones and is kept when actions are put together holds of everything that
the compiler does.  Most actions read neither the log nor the number of tokens, nor what is known about later
definitions.

* `Emitter.Mild action` — `action` does not shrink the code and fails at a branch field only;
* `Compiler.hide s hidden` — the state `s` with other values for what most actions do not read;
* `Compiler.Closed P` — `P` holds of the basic actions and is kept when actions are put together;
* `Compiler.Closed.compileItem` — **such a property holds of every item** if it holds of plain words.
-/

namespace ForthElf

/-- Whether an error is that of a call whose definition never came. -/
def Error.isUnresolvedCall : Error → Bool
  | .unresolvedForwardCall _ _ => true
  | _ => false

/-! ### Actions of the emitter -/

namespace Emitter

/-- The emitter in which an action ends. -/
def endOf {α : Type} : EStateM.Result Error Emitter α → Emitter
  | .ok _ e => e
  | .error _ e => e

/-- An action that does not shrink the code and fails at a branch field only. -/
structure Mild {α : Type} (action : Emit α) : Prop where
  grows : ∀ e : Emitter, e.offset ≤ (endOf (action e)).offset
  fails : ∀ {e e' : Emitter} {error : Error}, action e = .error error e' → error.isUnresolvedCall = false

theorem offset_endOf_patch (site target : Nat) (e : Emitter) :
    (endOf (Emitter.patch site target e)).offset = e.offset := by
  unfold Emitter.patch
  cases h : CodeBuffer.patchRel32 site target e.code with
  | ok _ code => exact CodeBuffer.offset_of_patch (CodeBuffer.patch_of_patchRel32 h)
  | error error code => rw [(CodeBuffer.patchRel32_error h).2]; exact rfl

theorem error_of_patch {site target : Nat} {e e' : Emitter} {error : Error}
    (h : Emitter.patch site target e = .error error e') : error = .patch site := by
  unfold Emitter.patch at h
  split at h
  · cases h
  · next hpatch =>
    cases h
    exact (CodeBuffer.patchRel32_error hpatch).1

theorem error_of_branchTo {kind : Branch} {target : Nat} {e e' : Emitter} {error : Error}
    (h : branchTo kind target e = .error error e') : error = .patch (e.branchSite kind) :=
  error_of_patch (e := e.placeholder kind) h

/-- A built-in word fails at the field of its call. -/
theorem error_of_primitive {printNumber : Nat} {p : Primitive} {e e' : Emitter} {error : Error}
    (h : Emitter.primitive printNumber p e = .error error e') : error = .patch (e.spill.branchSite .call) := by
  unfold Emitter.primitive at h
  cases hrecipe : p.recipe with
  | block entry body exit =>
    rw [hrecipe] at h
    cases h
  | discard =>
    rw [hrecipe] at h
    cases h
  | print =>
    rw [hrecipe] at h
    exact error_of_branchTo (e := e.spill) h

theorem mild_patch (site target : Nat) : Mild (Emitter.patch site target) where
  grows e := Nat.le_of_eq (offset_endOf_patch site target e).symm
  fails h := by
    rw [error_of_patch h]
    rfl

theorem mild_branchTo (kind : Branch) (target : Nat) : Mild (branchTo kind target) where
  grows e := by
    have hpatch := offset_endOf_patch (e.branchSite kind) target (e.placeholder kind)
    exact Nat.le_trans (offset_le_emitBlock [.branch kind 0] e) (Nat.le_of_eq hpatch.symm)
  fails {e _ _} h := (mild_patch (e.branchSite kind) target).fails (e := e.placeholder kind) h

theorem mild_primitive (printNumber : Nat) (p : Primitive) : Mild (Emitter.primitive printNumber p) := by
  unfold Emitter.primitive
  cases p.recipe with
  | block entry body exit =>
    refine ⟨fun e => ?_, fun h => by cases h⟩
    show e.offset ≤ (e.block entry body exit).offset
    rw [offset_of_code (code_block e entry body exit)]
    exact Nat.le_add_right _ _
  | discard =>
    refine ⟨fun e => ?_, fun h => by cases h⟩
    show e.offset ≤ e.discard.offset
    rw [offset_of_code (code_discard e)]
    exact Nat.le_add_right _ _
  | print =>
    refine ⟨fun e => ?_, fun {e _ _} h => (mild_branchTo .call printNumber).fails (e := e.spill) h⟩
    exact Nat.le_trans (offset_le_spill e) ((mild_branchTo .call printNumber).grows e.spill)

end Emitter

namespace Compiler

/-! ### Properties that are kept -/

/-- What most actions do not read: the number of tokens, the log, and what is known about later definitions. -/
structure Hidden where
  tokens : Nat := 0
  log : Array Event := #[]
  forwardRefs : Bool := false
  headers : List Header := []

/-- The state with other values for what most actions do not read. -/
def hide (s : Compiler) (hidden : Hidden) : Compiler :=
  { s with
    stats := { s.stats with tokens := hidden.tokens }
    log := hidden.log
    options := { s.options with forwardRefs := hidden.forwardRefs }
    forward := { s.forward with headers := hidden.headers } }

/-- A property of actions that holds of the basic ones and is kept when actions are put together.  An action may look at
the state, but not at what is hidden. -/
structure Closed (P : {α : Type} → Compile α → Prop) : Prop where
  pure : ∀ {α : Type} (a : α), P (pure a : Compile α)
  throw : ∀ {α : Type} {e : Error}, e.isUnresolvedCall = false → P (throw e : Compile α)
  bind : ∀ {α β : Type} {m : Compile α} {f : α → Compile β}, P m → (∀ a, P (f a)) → P (m >>= f)
  get_bind : ∀ {β : Type} {f : Compiler → Compile β}, (∀ s, f s = f (s.hide {})) → (∀ s, P (f s)) → P (get >>= f)
  note : ∀ event : Event, P (note event)
  count : ∀ {change : Statistics → Statistics},
    (∀ stats, { change stats with tokens := 0 } = { change { stats with tokens := 0 } with tokens := 0 }) →
    P (count change)
  /-- A change of the bookkeeping. -/
  book : ∀ {change : Compiler → Compiler}, (∀ s hidden, change (s.hide hidden) = (change s).hide hidden) →
    (∀ s, (change s).code = s.code) → P (modify change : Compile PUnit)
  emitting : ∀ {change : Emitter → Emitter}, (∀ e, e.offset ≤ (change e).offset) → P (emitting change)
  emitter : ∀ {α : Type} {action : Emit α}, Emitter.Mild action → P (emitter action)

namespace Closed

/-! ### Basic actions -/

section Basic

variable {P : {α : Type} → Compile α → Prop} {α : Type}

theorem ite (_ : Closed P) {c : Prop} [Decidable c] {a b : Compile α} (ha : P a) (hb : P b) :
    P (if c then a else b) := by
  split
  · exact ha
  · exact hb

variable (hP : Closed P)
include hP

theorem require {result : Except Error α} (h : ∀ e, result = .error e → e.isUnresolvedCall = false) :
    P (require result) := by
  cases result with
  | ok a => exact hP.pure a
  | error e => exact hP.throw (h e rfl)

theorem here : P here :=
  hP.get_bind (fun _ => rfl) fun s => hP.pure s.offset

theorem emitBlock (block : List Instruction) : P (emitBlock block) :=
  hP.emitting (Emitter.offset_le_emitBlock block)

theorem spill : P (Compiler.emitting (·.spill)) :=
  hP.emitting Emitter.offset_le_spill

theorem literal (value : BitVec 64) : P (Compiler.emitting (·.literal value)) :=
  hP.emitting fun e => by
    rw [Emitter.literal, Emitter.offset_setState, Emitter.offset_emit, Emitter.offset_spill]
    omega

theorem placeholder (kind : Branch) : P (placeholder kind) :=
  hP.get_bind (fun _ => rfl) fun _ =>
    hP.bind (hP.emitting fun e => Emitter.offset_le_emitBlock [.branch kind 0] e) fun _ => hP.pure _

theorem branchTo (kind : Branch) (target : Nat) : P (Compiler.emitter (Emitter.branchTo kind target)) :=
  hP.emitter (Emitter.mild_branchTo kind target)

theorem patch (site target : Nat) : P (patch site target) :=
  hP.bind (hP.emitter (Emitter.mild_patch site target)) fun _ => hP.count fun _ => rfl

theorem patchHere (site : Nat) : P (patchHere site) :=
  hP.bind hP.here fun target => hP.bind (hP.patch site target) fun _ => hP.note _

/-! ### Constructs -/

theorem popFor (word : String) (pos : Position) (select : Construct → Option α) : P (popFor word pos select) := by
  refine hP.get_bind (fun _ => rfl) fun s => hP.bind (hP.require fun e he => ?_) fun ⟨_, _⟩ =>
    hP.bind (hP.book (fun _ _ => rfl) fun _ => rfl) fun _ => hP.pure _
  unfold ControlStack.popFor at he
  split at he
  · cases he
    rfl
  · split at he <;> cases he
    rfl

theorem pushFrame (construct : Construct) (pos : Position) (state : CacheState) : P (pushFrame construct pos state) :=
  hP.book (fun _ _ => rfl) fun _ => rfl

theorem checkMerge (expected : CacheState) (pos : Position) : P (checkMerge expected pos) :=
  hP.get_bind (fun _ => rfl) fun _ => hP.ite (hP.throw rfl) (hP.pure _)

theorem testFlag : P testFlag :=
  hP.emitting fun e => by
    rw [Emitter.offset_setState, Emitter.offset_emit, Emitter.offset_fill]
    omega

theorem beginCode : P beginCode :=
  hP.get_bind (fun _ => rfl) fun _ => hP.ite
    (hP.bind (hP.emitting fun e => Emitter.offset_le_emitBlock _ e) fun _ =>
      hP.bind (hP.book (fun _ _ => rfl) fun _ => rfl) fun _ => hP.note _)
    (hP.pure _)

theorem popBegin (word : String) (pos : Position) : P (popBegin word pos) :=
  hP.bind (hP.popFor ..) fun ⟨_, _⟩ => hP.pure _

theorem popDo (word : String) (pos : Position) : P (popDo word pos) :=
  hP.bind (hP.popFor ..) fun ⟨_, _⟩ => hP.pure _

/-! ### Keywords -/

theorem endDefinition (pos : Position) : P (endDefinition pos) := by
  refine hP.get_bind (fun _ => rfl) fun s => ?_
  cases s.current with
  | none => exact hP.throw rfl
  | some definition =>
    have hdone : P (do
        modify fun s => { s with dictionary := s.dictionary.reveal definition.number, current := none }
        Compiler.count (·.countWord)
        Compiler.note (.definitionDone definition.name ((← Compiler.here) - definition.offset)) : Compile Unit) :=
      hP.bind (hP.book (fun _ _ => rfl) fun _ => rfl) fun _ =>
        hP.bind (hP.count fun _ => rfl) fun _ => hP.bind hP.here fun _ => hP.note _
    have hclosed : ∀ e, s.control.ensureClosed = .error e → e.isUnresolvedCall = false := by
      intro e he
      unfold ControlStack.ensureClosed at he
      split at he <;> cases he
      rfl
    refine hP.bind (hP.require hclosed) fun _ => hP.ite (hP.bind (hP.note _) fun _ => ?_) ?_
    -- Noted or not, the end is the same.
    all_goals
      refine hP.bind (hP.book (fun _ _ => rfl) fun _ => rfl) fun _ => hP.bind (hP.emitting fun e => ?_) fun _ => ?_
      · rw [Emitter.offset_emit, Emitter.offset_spill]
        omega
      · cases definition.skipSite with
        | some site => exact hP.bind hP.here fun target => hP.bind (hP.patch site target) fun _ => hdone
        | none => exact hdone

theorem compileLoopIndex (word : String) (depth : Nat) (pos : Position) : P (compileLoopIndex word depth pos) := by
  refine hP.get_bind (fun _ => rfl) fun _ => hP.ite (hP.throw rfl) (hP.emitting fun e => ?_)
  rw [Emitter.offset_of_code (Emitter.code_block e ..)]
  exact Nat.le_add_right _ _

/-- **Keywords.** -/
theorem compileKeyword (token : Token) (k : Keyword) : P (compileKeyword token k) := by
  cases k with
  | colon => exact hP.throw rfl
  | «variable» => exact hP.throw rfl
  | semicolon => exact hP.endDefinition token.pos
  | «if» =>
    exact hP.bind hP.beginCode fun _ => hP.bind hP.testFlag fun _ => hP.bind (hP.placeholder _) fun _ =>
      hP.get_bind (fun _ => rfl) fun _ => hP.pushFrame ..
  | «else» =>
    exact hP.bind (hP.popFor ..) fun ⟨site, frame⟩ => hP.bind hP.spill fun _ => hP.get_bind (fun _ => rfl) fun _ =>
      hP.bind (hP.placeholder _) fun _ => hP.bind (hP.patchHere site) fun _ =>
      hP.bind (hP.emitting fun _ => Nat.le_refl _) fun _ => hP.pushFrame ..
  | «then» =>
    exact hP.bind (hP.popFor ..) fun ⟨site, frame⟩ => hP.bind hP.spill fun _ => hP.bind (hP.checkMerge ..) fun _ =>
      hP.patchHere site
  | «begin» =>
    exact hP.bind hP.beginCode fun _ => hP.bind hP.spill fun _ => hP.bind hP.here fun _ =>
      hP.get_bind (fun _ => rfl) fun _ => hP.pushFrame ..
  | «until» =>
    exact hP.bind (hP.popBegin ..) fun ⟨target, _⟩ => hP.bind hP.testFlag fun _ => hP.bind (hP.checkMerge ..) fun _ =>
      hP.branchTo _ target
  | again =>
    exact hP.bind (hP.popBegin ..) fun ⟨target, _⟩ => hP.bind hP.spill fun _ => hP.bind (hP.checkMerge ..) fun _ =>
      hP.branchTo _ target
  | «while» =>
    exact hP.bind (hP.popBegin ..) fun _ => hP.bind hP.testFlag fun _ => hP.bind (hP.placeholder _) fun _ =>
      hP.pushFrame ..
  | «repeat» =>
    exact hP.bind (hP.popFor ..) fun ⟨⟨target, site⟩, _⟩ =>
      hP.bind hP.spill fun _ => hP.bind (hP.checkMerge ..) fun _ =>
      hP.bind (hP.branchTo _ target) fun _ => hP.patchHere site
  | «do» =>
    refine hP.bind hP.beginCode fun _ => hP.bind (hP.emitting fun e => ?_) fun _ => hP.bind hP.here fun _ =>
      hP.get_bind (fun _ => rfl) fun _ => hP.pushFrame ..
    rw [Emitter.offset_setState, Emitter.offset_emitBlock, Emitter.offset_fill]
    omega
  | loop =>
    exact hP.bind (hP.popDo ..) fun ⟨body, _⟩ => hP.bind hP.spill fun _ => hP.bind (hP.checkMerge ..) fun _ =>
      hP.bind (hP.emitBlock _) fun _ => hP.bind (hP.branchTo _ body) fun _ => hP.emitBlock _
  | plusLoop =>
    exact hP.bind (hP.popDo ..) fun ⟨body, _⟩ => hP.bind (hP.emitting Emitter.offset_le_fill) fun _ =>
      hP.bind (hP.checkMerge ..) fun _ => hP.bind (hP.emitBlock _) fun _ => hP.bind (hP.placeholder _) fun crossed =>
      hP.bind (hP.emitBlock _) fun _ => hP.bind (hP.branchTo _ body) fun _ => hP.bind (hP.patchHere crossed) fun _ =>
      hP.emitBlock _
  | loopIndex => exact hP.compileLoopIndex ..
  | outerLoopIndex => exact hP.compileLoopIndex ..
  | unloop =>
    exact hP.get_bind (fun _ => rfl) fun _ => hP.ite (hP.throw rfl) <|
      hP.bind (hP.emitBlock _) fun _ => hP.book (fun _ _ => rfl) fun _ => rfl
  | exit =>
    exact hP.get_bind (fun _ => rfl) fun _ => hP.ite (hP.throw rfl) <|
      hP.bind hP.spill fun _ => hP.bind (hP.emitBlock _) fun _ =>
      hP.bind (hP.book (fun _ _ => rfl) fun _ => rfl) fun _ => hP.emitBlock _
  | recurse =>
    refine hP.get_bind (fun _ => rfl) fun s => ?_
    cases s.current with
    | none => exact hP.throw rfl
    | some definition =>
      exact hP.bind hP.spill fun _ => hP.bind (hP.branchTo ..) fun _ => hP.count fun _ => rfl

/-! ### Items -/

theorem resolveCalls (name : String) (target : Nat) (sites : List Nat) : P (resolveCalls name target sites) := by
  induction sites with
  | nil => exact hP.pure _
  | cons site sites ih => exact hP.bind (hP.patch site target) fun _ => hP.bind (hP.note _) fun _ => ih

theorem noteOlderMeaning (name : Token) : P (noteOlderMeaning name) := by
  refine hP.get_bind (fun _ => rfl) fun s => ?_
  cases s.dictionary.find? name.text with
  | some previous => exact hP.note _
  | none => exact hP.ite (hP.note _) (hP.pure _)

theorem skipDefinition : P skipDefinition :=
  hP.get_bind (fun _ => rfl) fun _ => hP.ite
    (hP.bind hP.spill fun _ => hP.bind (hP.placeholder _) fun _ => hP.pure _) (hP.pure _)

theorem beginDefinition (name : Token) (pos : Position) : P (beginDefinition name pos) :=
  hP.get_bind (fun _ => rfl) fun _ => hP.ite (hP.throw rfl) <|
    hP.bind hP.skipDefinition fun _ => hP.bind (hP.emitting fun _ => Nat.le_refl _) fun _ =>
    hP.bind (hP.noteOlderMeaning name) fun _ => hP.bind hP.here fun _ =>
    hP.get_bind (fun _ => rfl) fun _ => hP.bind (hP.book (fun _ _ => rfl) fun _ => rfl) fun _ =>
    hP.get_bind (fun _ => rfl) fun _ => hP.bind (hP.book (fun _ _ => rfl) fun _ => rfl) fun _ =>
    hP.bind (hP.resolveCalls ..) fun _ => hP.bind (hP.note _) fun _ => hP.book (fun _ _ => rfl) fun _ => rfl

theorem defineVariable (name : Token) (pos : Position) : P (defineVariable name pos) := by
  have hdefine : ∀ address : UInt64, P (do
      modify fun s => { s with
        cells := s.cells + 1
        dictionary := s.dictionary.define ⟨name.text, .cell address, pos, false⟩ }
      Compiler.count (·.countVariable)
      Compiler.note (.variablePlaced name.text address) : Compile Unit) := fun _ =>
    hP.bind (hP.book (fun _ _ => rfl) fun _ => rfl) fun _ => hP.bind (hP.count fun _ => rfl) fun _ => hP.note _
  exact hP.get_bind (fun _ => rfl) fun _ => hP.ite (hP.bind (hP.note _) fun _ => hdefine _) (hdefine _)

theorem compileNumber (token : Token) (literal : Literal) : P (compileNumber token literal) := by
  cases literal with
  | outOfRange => exact hP.throw rfl
  | cell value => exact hP.bind hP.beginCode fun _ => hP.bind (hP.literal value) fun _ => hP.count fun _ => rfl

theorem compilePrimitive (p : Primitive) : P (compilePrimitive p) :=
  hP.bind hP.beginCode fun _ => hP.get_bind (fun _ => rfl) fun _ =>
    hP.bind (hP.emitter (Emitter.mild_primitive ..)) fun _ =>
    hP.bind (hP.book (fun _ _ => rfl) fun _ => rfl) fun _ => hP.count fun _ => rfl

theorem compileMeaning (meaning : Meaning) : P (compileMeaning meaning) := by
  cases meaning with
  | code offset =>
    exact hP.bind hP.beginCode fun _ => hP.bind hP.spill fun _ => hP.bind (hP.branchTo ..) fun _ =>
      hP.count fun _ => rfl
  | cell address => exact hP.bind hP.beginCode fun _ => hP.literal address.toBitVec

theorem compileForwardCall (token : Token) : P (compileForwardCall token) :=
  hP.bind hP.beginCode fun _ => hP.bind hP.spill fun _ => hP.bind (hP.placeholder _) fun _ =>
    hP.bind (hP.book (fun _ _ => rfl) fun _ => rfl) fun _ => hP.count fun _ => rfl

theorem skipWord (token : Token) : P (skipWord token) :=
  hP.bind (hP.note _) fun _ => hP.bind (hP.book (fun _ _ => rfl) fun _ => rfl) fun _ => hP.count fun _ => rfl

theorem meetToken (token : Token) : P (meetToken token) :=
  hP.get_bind (fun _ => rfl) fun _ => hP.bind (hP.note _) fun _ => hP.count fun _ => rfl

/-- **Items.**  Plain words look at what is known about later definitions. -/
theorem compileItem (item : Item) (hword : ∀ token index, item = .word token index → P (compileWord token index)) :
    P (compileItem item) := by
  cases item with
  | define colon name index => exact hP.bind (hP.meetToken colon) fun _ => hP.beginDefinition name colon.pos
  | «variable» word name index => exact hP.bind (hP.meetToken word) fun _ => hP.defineVariable name word.pos
  | keyword k token index => exact hP.bind (hP.meetToken token) fun _ => hP.compileKeyword token k
  | number literal token index => exact hP.bind (hP.meetToken token) fun _ => hP.compileNumber token literal
  | word token index => exact hP.bind (hP.meetToken token) fun _ => hword token index rfl

theorem forM_compileItem (items : List Item)
    (hword : ∀ token index, P (Compiler.compileWord token index)) : P (items.forM Compiler.compileItem) := by
  induction items with
  | nil => exact hP.pure _
  | cons item items ih =>
    exact hP.bind (hP.compileItem item fun token index _ => hword token index) fun _ => ih

theorem endProgram : P endProgram :=
  hP.bind hP.beginCode fun _ => hP.emitting fun e =>
    Nat.le_trans (Emitter.offset_le_spill e) (Emitter.offset_le_emitBlock _ e.spill)

end Basic

end Closed

end Compiler

end ForthElf
