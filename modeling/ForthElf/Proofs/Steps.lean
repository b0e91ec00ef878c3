import ForthElf.Proofs.Emission

/-!
# One item at a time

What each action of the compiler does when it succeeds, up to the main statement:

* `Compiler.compileItem_compiled` — **compiling an item does what `Compiler.Compiled` says**.
-/

namespace ForthElf

open Register

/-! ### Emitting -/

namespace CodeBuffer

theorem patchRel32_append {code after : CodeBuffer} {front back : List Instruction} {kind : Branch}
    {d : BitVec 32} {site target : Nat} (hsite : site = code.offset + codeSize front + kind.opcode.length)
    (h : patchRel32 site target (code.append (assemble (front ++ .branch kind d :: back))) = .ok () after) :
    after = code.append
      (assemble (front ++ leading (code.offset + codeSize front) kind target :: back)) := by
  have hbytes : (code.append (assemble (front ++ .branch kind d :: back))).bytes.toList =
      (code.bytes.toList ++ assemble front) ++ (Instruction.branch kind d).encode ++ assemble back := by
    simp [CodeBuffer.append]
  have hlength : (code.bytes.toList ++ assemble front).length = code.offset + codeSize front := by
    rw [List.length_append, length_assemble, Array.length_toList, CodeBuffer.offset]
  have hafter := toList_patchRel32 hbytes (by rw [hlength, hsite]) h
  obtain ⟨bytes⟩ := after
  rw [hlength] at hafter
  refine congrArg CodeBuffer.mk (Array.toList_inj.mp ?_)
  rw [hafter]
  simp

end CodeBuffer

namespace Emitter

theorem offset_eq (e : Emitter) : e.offset = e.code.offset := rfl

theorem offset_of_code {e e' : Emitter} {block : List Instruction}
    (h : e'.code = e.code.append (assemble block)) : e'.offset = e.offset + codeSize block := by
  rw [offset, h, CodeBuffer.offset_append, length_assemble, offset]

@[simp] theorem code_emit (e : Emitter) (i : Instruction) :
    (e.emit i).code = e.code.append (assemble [i]) := by
  simp [emit]

@[simp] theorem cache_emit (e : Emitter) (i : Instruction) : (e.emit i).cache = e.cache := rfl

@[simp] theorem code_emitBlock (e : Emitter) (block : List Instruction) :
    (e.emitBlock block).code = e.code.append (assemble block) := by
  rw [emitBlock_eq]

@[simp] theorem cache_emitBlock (e : Emitter) (block : List Instruction) :
    (e.emitBlock block).cache = e.cache := by
  rw [emitBlock_eq]

@[simp] theorem code_placeholder (e : Emitter) (kind : Branch) :
    (e.placeholder kind).code = e.code.append (assemble [.branch kind 0]) :=
  code_emit e _

@[simp] theorem cache_placeholder (e : Emitter) (kind : Branch) :
    (e.placeholder kind).cache = e.cache := rfl

@[simp] theorem code_spill (e : Emitter) :
    e.spill.code = e.code.append (assemble e.cache.state.spilling) := by
  unfold spill CacheState.spilling
  cases e.cache.state <;> simp [countSpill]

@[simp] theorem code_fill (e : Emitter) :
    e.fill.code = e.code.append (assemble e.cache.state.filling) := by
  unfold fill CacheState.filling
  cases e.cache.state <;> simp [countFill]

@[simp] theorem code_settle (e : Emitter) (state : CacheState) :
    (e.settle state).code = e.code.append (assemble (e.cache.state.settling state)) := by
  cases state <;> simp [settle, CacheState.settling]

@[simp] theorem code_block (e : Emitter) (entry : CacheState) (body : List Instruction)
    (exit : CacheState) :
    (e.block entry body exit).code = e.code.append (assemble (e.cache.state.settling entry ++ body)) := by
  simp [block, CodeBuffer.append_append]

@[simp] theorem state_block (e : Emitter) (entry : CacheState) (body : List Instruction)
    (exit : CacheState) : (e.block entry body exit).cache.state = exit := rfl

theorem code_discard (e : Emitter) :
    e.discard.code = e.code.append (assemble (Recipe.discard.code 0 0 e.cache.state)) := by
  unfold discard
  cases h : e.cache.state <;> simp [Recipe.code]

theorem state_discard (e : Emitter) : e.discard.cache.state = .spilled := by
  unfold discard
  split
  · rfl
  · next h => exact h

@[simp] theorem offset_emit (e : Emitter) (i : Instruction) : (e.emit i).offset = e.offset + i.size := by
  rw [offset_of_code (code_emit e i), codeSize_cons, codeSize_nil, Nat.add_zero]

@[simp] theorem offset_emitBlock (e : Emitter) (block : List Instruction) :
    (e.emitBlock block).offset = e.offset + codeSize block :=
  offset_of_code (code_emitBlock e block)

@[simp] theorem offset_setState (e : Emitter) (state : CacheState) : (e.setState state).offset = e.offset :=
  rfl

@[simp] theorem offset_spill (e : Emitter) :
    e.spill.offset = e.offset + codeSize e.cache.state.spilling :=
  offset_of_code (code_spill e)

@[simp] theorem offset_fill (e : Emitter) :
    e.fill.offset = e.offset + codeSize e.cache.state.filling :=
  offset_of_code (code_fill e)

theorem offset_le_emitBlock (block : List Instruction) (e : Emitter) : e.offset ≤ (e.emitBlock block).offset := by
  rw [offset_emitBlock]
  exact Nat.le_add_right _ _

theorem offset_le_spill (e : Emitter) : e.offset ≤ e.spill.offset := by
  rw [offset_spill]
  exact Nat.le_add_right _ _

theorem offset_le_fill (e : Emitter) : e.offset ≤ e.fill.offset := by
  rw [offset_fill]
  exact Nat.le_add_right _ _

/-- The field of a branch that is emitted next is the last one before the place behind it. -/
theorem branchSite_eq (e : Emitter) (kind : Branch) (d : BitVec 32) :
    e.branchSite kind = e.offset + (Instruction.branch kind d).size - 4 := by
  rw [branchSite, size_branch]
  omega

theorem branchTo_ok {kind : Branch} {target : Nat} {e e' : Emitter} {u : Unit}
    (h : branchTo kind target e = .ok u e') : e' = e.emit (leading e.offset kind target) := by
  change patch (e.branchSite kind) target (e.placeholder kind) = .ok u e' at h
  unfold patch at h
  split at h
  · next _ code hcode =>
    cases h
    have hemit : (e.placeholder kind).code = e.code.append (assemble ([] ++ Instruction.branch kind 0 :: [])) :=
      code_emit e _
    rw [hemit] at hcode
    have := CodeBuffer.patchRel32_append (by simp [branchSite, offset_eq]) hcode
    subst this
    simp [emit, offset_eq]
  · cases h

theorem follow_ok {printNumber : Nat} {recipe : Recipe} {e e' : Emitter} {u : Unit}
    (h : follow printNumber recipe e = .ok u e') :
    e'.code = e.code.append (assemble (recipe.code printNumber e.offset e.cache.state)) ∧
      e'.cache.state = recipe.exitState := by
  cases recipe with
  | block entry body exit =>
    cases h
    exact ⟨code_block e entry body exit, rfl⟩
  | discard =>
    cases h
    exact ⟨code_discard e, state_discard e⟩
  | print =>
    obtain rfl := branchTo_ok (e := e.spill) h
    refine ⟨?_, state_spill e⟩
    simp [Recipe.code, branching, CodeBuffer.append_append]

/-- A jump over a block and a branch behind it, patched when both are emitted. -/
theorem code_of_patch_behind {e inner : Emitter} {a b : List Instruction} {jump kind : Condition}
    {target : Nat} {code : CodeBuffer}
    (hinner : inner = ((e.emitBlock a).placeholder (.jumpIf jump)).emitBlock b)
    (h : CodeBuffer.patchRel32 ((e.emitBlock a).branchSite (.jumpIf jump))
      (inner.emit (leading inner.offset (.jumpIf kind) target)).offset
      (inner.emit (leading inner.offset (.jumpIf kind) target)).code = .ok () code) :
    code = e.code.append (assemble (a ++
      leading (e.offset + codeSize a) (.jumpIf jump) (e.offset + codeSize a + 6 + codeSize b + 6) ::
        (b ++ [leading (e.offset + codeSize a + 6 + codeSize b) (.jumpIf kind) target]))) := by
  have hcode : inner.code = e.code.append (assemble (a ++ .branch (.jumpIf jump) 0 :: b)) := by
    simp [hinner, CodeBuffer.append_append]
  have hoffset : inner.offset = e.offset + codeSize a + 6 + codeSize b := by
    rw [offset_of_code hcode, codeSize_append, codeSize_cons, size_branch]
    simp only [Branch.opcode, List.length_cons, List.length_nil]
    omega
  rw [offset_emit, code_emit, hcode, CodeBuffer.append_append, ← assemble_append, List.append_assoc,
    List.cons_append, size_leading, hoffset] at h
  refine CodeBuffer.patchRel32_append ?_ h
  rw [branchSite, offset_emitBlock]
  rfl

end Emitter

namespace Compiler

/-! ### Starting the main program -/

theorem holds_initial (options : Options) : (initial options).code.Holds ForthElf.printNumber := by
  show (Emitter.emitBlock {} ForthElf.printNumber).code.bytes.toList = _
  rw [Emitter.code_emitBlock, CodeBuffer.append, Array.toList_append]
  rfl

theorem code_begun (s : Compiler) : s.begun.code = s.code.append (assemble s.opening) := by
  unfold begun opening
  split
  · rw [Emitter.code_setState, Emitter.code_emitBlock]
  · rw [assemble_nil, CodeBuffer.append_nil]

theorem code_ready (s : Compiler) (item : Item) :
    (s.ready item).code = s.code.append (assemble (s.lead item)) := by
  unfold ready lead
  split
  · exact code_begun (s.met item.token)
  · exact (CodeBuffer.append_nil s.code).symm

theorem offset_ready (s : Compiler) (item : Item) :
    (s.ready item).offset = s.offset + codeSize (s.lead item) :=
  Emitter.offset_of_code (code_ready s item)

namespace Compiled

variable {s s' : Compiler} {item : Item}

theorem offset_eq_behind (h : Compiled s item s') : s'.offset = s.behind item := by
  have hcode := h.code.1
  rw [CodeBuffer.offset_append, length_assemble] at hcode
  exact hcode

theorem offset_eq (h : Compiled (s.ready item) item s') : s'.offset = s.offset + codeSize (s.block item) := by
  rw [h.offset_eq_behind, behind, offset_ready, block, codeSize_append, Nat.add_assoc]

/-- An item adds its block, and then leads the fields that waited for it behind the block. -/
theorem aims (h : Compiled (s.ready item) item s') :
    CodeBuffer.Aims (s.fixes item) s'.offset (s.code.append (assemble (s.block item))) s'.code := by
  have hcode := h.code
  rw [fixes_ready, code_ready, CodeBuffer.append_append, ← assemble_append] at hcode
  rw [h.offset_eq_behind]
  exact hcode

end Compiled

/-! ### Actions -/

section Actions

variable {α β : Type} {s s' : Compiler}

theorem bind_eq_ok {m : Compile α} {f : α → Compile β} {b : β} :
    (m >>= f) s = .ok b s' ↔ ∃ a t, m s = .ok a t ∧ f a t = .ok b s' := by
  show EStateM.bind m f s = _ ↔ _
  unfold EStateM.bind
  cases m s with
  | ok a t =>
    constructor
    · intro h
      exact ⟨a, t, rfl, h⟩
    · rintro ⟨a, t, ⟨⟩, h⟩
      exact h
  | error e t => simp

theorem bind_eq_error {m : Compile α} {f : α → Compile β} {e : Error} (h : (m >>= f) s = .error e s') :
    m s = .error e s' ∨ ∃ a t, m s = .ok a t ∧ f a t = .error e s' := by
  change EStateM.bind m f s = .error e s' at h
  unfold EStateM.bind at h
  cases hm : m s with
  | ok a t =>
    rw [hm] at h
    exact .inr ⟨a, t, rfl, h⟩
  | error e' t =>
    rw [hm] at h
    cases h
    exact .inl rfl

theorem get_bind_apply (f : Compiler → Compile β) : (get >>= f : Compile β) s = f s s := rfl

theorem modify_bind_apply (change : Compiler → Compiler) (f : PUnit → Compile β) :
    (modify change >>= f : Compile β) s = f () (change s) := rfl

theorem emitting_bind_apply (change : Emitter → Emitter) (f : Unit → Compile β) :
    (emitting change >>= f) s = f () { s with toEmitter := change s.toEmitter } := rfl

theorem emitBlock_bind_apply (block : List Instruction) (f : Unit → Compile β) :
    (emitBlock block >>= f) s = f () { s with toEmitter := s.toEmitter.emitBlock block } := rfl

theorem note_bind_apply (event : Event) (f : Unit → Compile β) :
    (note event >>= f) s = f () { s with log := s.log.push event } := rfl

theorem count_bind_apply (change : Statistics → Statistics) (f : Unit → Compile β) :
    (count change >>= f) s = f () { s with stats := change s.stats } := rfl

theorem here_bind_apply (f : Nat → Compile β) : (here >>= f) s = f s.offset s := rfl

theorem placeholder_bind_apply (kind : Branch) (f : Nat → Compile β) :
    (placeholder kind >>= f) s =
      f (s.branchSite kind) { s with toEmitter := s.toEmitter.placeholder kind } := rfl

theorem meetToken_bind_apply (token : Token) (f : Unit → Compile β) :
    (meetToken token >>= f) s = f () (s.met token) := rfl

theorem beginCode_bind_apply (f : Unit → Compile β) : (beginCode >>= f) s = f () s.begun := by
  have hbegin : beginCode s = .ok () s.begun := by
    unfold beginCode begun starting
    rw [get_bind_apply]
    by_cases h : s.current.isNone ∧ s.entry.isNone
    · have hb : (s.current.isNone && s.entry.isNone) = true := by simpa using h
      rw [if_pos h, if_pos hb]
      rfl
    · have hb : ¬(s.current.isNone && s.entry.isNone) = true := by simpa using h
      rw [if_neg h, if_neg hb]
      rfl
  show EStateM.bind beginCode f s = _
  unfold EStateM.bind
  rw [hbegin]

theorem emitBlock_ok {block : List Instruction} {u : Unit} (h : emitBlock block s = .ok u s') :
    s' = { s with toEmitter := s.toEmitter.emitBlock block } :=
  (EStateM.Result.ok.inj h).2.symm

theorem require_ok {result : Except Error α} {a : α} (h : require result s = .ok a s') :
    result = .ok a ∧ s' = s := by
  unfold require at h
  split at h <;> cases h
  exact ⟨rfl, rfl⟩

theorem popFor_ok {word : String} {pos : Position} {select : Construct → Option α} {a : α}
    {frame : Frame} (h : popFor word pos select s = .ok (a, frame) s') :
    ∃ rest, s.control = frame :: rest ∧ select frame.construct = some a ∧
      s' = { s with control := rest } := by
  rw [popFor, get_bind_apply, bind_eq_ok] at h
  obtain ⟨⟨⟨a', frame'⟩, rest⟩, t, hrequire, h⟩ := h
  obtain ⟨htaken, rfl⟩ := require_ok hrequire
  cases h
  obtain ⟨hcontrol, hselect⟩ := ControlStack.popFor_eq_ok htaken
  exact ⟨rest, hcontrol, hselect, rfl⟩

theorem checkMerge_ok {expected : CacheState} {pos : Position} {u : Unit}
    (h : checkMerge expected pos s = .ok u s') : s' = s := by
  rw [checkMerge, get_bind_apply] at h
  split at h <;> cases h
  rfl

theorem branchTo_ok {kind : Branch} {target : Nat} {u : Unit}
    (h : emitter (Emitter.branchTo kind target) s = .ok u s') :
    s' = { s with toEmitter := s.toEmitter.emit (leading s.offset kind target) } := by
  unfold emitter at h
  split at h <;> cases h
  next e he => rw [Emitter.branchTo_ok he]

theorem patch_ok {site target : Nat} {u : Unit} (h : patch site target s = .ok u s') :
    ∃ code, CodeBuffer.patchRel32 site target s.code = .ok () code ∧
      s' = { s with code := code, stats := s.stats.countFixup } := by
  rw [patch, bind_eq_ok] at h
  obtain ⟨_, t, hpatch, h⟩ := h
  cases h
  unfold emitter Emitter.patch at hpatch
  cases hcode : CodeBuffer.patchRel32 site target s.code with
  | ok _ code =>
    rw [hcode] at hpatch
    cases hpatch
    exact ⟨code, rfl, rfl⟩
  | error e _ =>
    rw [hcode] at hpatch
    cases hpatch

theorem patchHere_ok {site : Nat} {u : Unit} (h : patchHere site s = .ok u s') :
    ∃ code, CodeBuffer.patchRel32 site s.offset s.code = .ok () code ∧
      s' = { s with
        code := code
        stats := s.stats.countFixup
        log := s.log.push (.branchResolved site s.offset) } := by
  rw [patchHere, here_bind_apply, bind_eq_ok] at h
  obtain ⟨_, t, hpatch, h⟩ := h
  obtain ⟨code, hcode, rfl⟩ := patch_ok hpatch
  cases h
  exact ⟨code, hcode, rfl⟩

end Actions

/-! ### Conditionals -/

section Keywords

variable {s s' : Compiler} {token : Token} {index : Nat}

theorem compiled_if (h : compileIf token.pos s = .ok () s') :
    Compiled s.begun (.keyword .«if» token index) s' := by
  simp only [compileIf, testFlag, beginCode_bind_apply, emitting_bind_apply, placeholder_bind_apply,
    get_bind_apply] at h
  cases h
  refine ⟨trivial, ?_, rfl, ?_, rfl, rfl, rfl, rfl, rfl, rfl, rfl⟩
  · simp [fixes, itemCode, keywordCode, testing, CodeBuffer.append_append, CodeBuffer.Aims.nil]
  · simp [controlAfter, opened, Item.role, Keyword.role, behind, itemCode, keywordCode, testing,
      Emitter.branchSite_eq _ _ 0, Nat.add_assoc]

theorem compiled_else (h : compileElse token.pos s = .ok () s') :
    Compiled s (.keyword .«else» token index) s' := by
  rw [compileElse, bind_eq_ok] at h
  obtain ⟨⟨site, frame⟩, t, hpop, h⟩ := h
  obtain ⟨rest, hcontrol, hselect, rfl⟩ := popFor_ok hpop
  have hif : frame.construct = .«if» site := by
    split at hselect <;> cases hselect
    assumption
  simp only [emitting_bind_apply, get_bind_apply, placeholder_bind_apply, bind_eq_ok] at h
  obtain ⟨_, t, hpatch, h⟩ := h
  obtain ⟨code, hcode, rfl⟩ := patchHere_ok hpatch
  cases h
  refine ⟨⟨site, by simp [innermost?, hcontrol, hif]⟩, ?_, ?_, ?_, rfl, rfl, rfl, rfl, rfl, rfl, rfl⟩
  · have haims := CodeBuffer.Aims.of_patchRel32 hcode
    simpa [fixes, innermost?, hcontrol, hif, Construct.site?, behind, itemCode, keywordCode,
      CodeBuffer.append_append, Emitter.placeholder, Nat.add_assoc] using haims
  · simp [stateAfter, mergeState, hcontrol]
  · simp [controlAfter, opened, Item.role, Keyword.role, behind, itemCode, keywordCode, hcontrol,
      Emitter.branchSite_eq _ _ 0, Nat.add_assoc]

theorem compiled_then (h : compileThen token.pos s = .ok () s') :
    Compiled s (.keyword .«then» token index) s' := by
  rw [compileThen, bind_eq_ok] at h
  obtain ⟨⟨site, frame⟩, t, hpop, h⟩ := h
  obtain ⟨rest, hcontrol, hselect, rfl⟩ := popFor_ok hpop
  have hconstruct : frame.construct = .«if» site ∨ frame.construct = .«else» site := by
    split at hselect <;> cases hselect
    · exact .inl ‹_›
    · exact .inr ‹_›
  have hsite : frame.construct.site? = some site := by
    rcases hconstruct with hc | hc <;> simp [hc, Construct.site?]
  simp only [emitting_bind_apply, bind_eq_ok] at h
  obtain ⟨_, t, hmerge, h⟩ := h
  obtain rfl := checkMerge_ok hmerge
  obtain ⟨code, hcode, rfl⟩ := patchHere_ok h
  refine ⟨⟨site, by simpa [innermost?, hcontrol] using hconstruct⟩, ?_, ?_, ?_, rfl, rfl, rfl, rfl, rfl,
    rfl, rfl⟩
  · have haims := CodeBuffer.Aims.of_patchRel32 hcode
    simpa [fixes, innermost?, hcontrol, hsite, behind, itemCode, keywordCode] using haims
  · simp [stateAfter]
  · simp [controlAfter, opened, Item.role, Keyword.role, hcontrol]

/-! ### Loops with a test -/

theorem compiled_begin (h : compileBegin token.pos s = .ok () s') :
    Compiled s.begun (.keyword .«begin» token index) s' := by
  simp only [compileBegin, beginCode_bind_apply, emitting_bind_apply, here_bind_apply, get_bind_apply] at h
  cases h
  refine ⟨trivial, ?_, ?_, ?_, rfl, rfl, rfl, rfl, rfl, rfl, rfl⟩
  · simp [fixes, itemCode, keywordCode, CodeBuffer.Aims.nil]
  · simp [stateAfter]
  · simp [controlAfter, opened, Item.role, Keyword.role, behind, itemCode, keywordCode]

theorem popBegin_ok {word : String} {pos : Position} {target : Nat} {state : CacheState}
    (h : popBegin word pos s = .ok (target, state) s') :
    ∃ frame rest, s.control = frame :: rest ∧ frame.construct = .«begin» target ∧
      frame.state = state ∧ s' = { s with control := rest } := by
  rw [popBegin, bind_eq_ok] at h
  obtain ⟨⟨target', frame⟩, t, hpop, h⟩ := h
  obtain ⟨rest, hcontrol, hselect, rfl⟩ := popFor_ok hpop
  cases h
  refine ⟨frame, rest, hcontrol, ?_, rfl, rfl⟩
  split at hselect <;> cases hselect
  assumption

theorem compiled_until (h : compileUntil token.pos s = .ok () s') :
    Compiled s (.keyword .«until» token index) s' := by
  rw [compileUntil, bind_eq_ok] at h
  obtain ⟨⟨target, state⟩, t, hpop, h⟩ := h
  obtain ⟨frame, rest, hcontrol, hbegin, -, rfl⟩ := popBegin_ok hpop
  simp only [testFlag, emitting_bind_apply, bind_eq_ok] at h
  obtain ⟨_, t, hmerge, h⟩ := h
  obtain rfl := checkMerge_ok hmerge
  obtain rfl := branchTo_ok h
  have hback : s.backTarget = target := by simp [backTarget, innermost?, hcontrol, hbegin, Construct.target?]
  refine ⟨⟨target, by simp [innermost?, hcontrol, hbegin]⟩, ?_, ?_, ?_, rfl, rfl, rfl, rfl, rfl, rfl, rfl⟩
  · simp [fixes, itemCode, keywordCode, branching, testing, hback, CodeBuffer.append_append,
      CodeBuffer.Aims.nil, Nat.add_assoc]
  · simp [stateAfter]
  · simp [controlAfter, opened, Item.role, Keyword.role, hcontrol]

theorem compiled_again (h : compileAgain token.pos s = .ok () s') :
    Compiled s (.keyword .again token index) s' := by
  rw [compileAgain, bind_eq_ok] at h
  obtain ⟨⟨target, state⟩, t, hpop, h⟩ := h
  obtain ⟨frame, rest, hcontrol, hbegin, -, rfl⟩ := popBegin_ok hpop
  simp only [emitting_bind_apply, bind_eq_ok] at h
  obtain ⟨_, t, hmerge, h⟩ := h
  obtain rfl := checkMerge_ok hmerge
  obtain rfl := branchTo_ok h
  have hback : s.backTarget = target := by simp [backTarget, innermost?, hcontrol, hbegin, Construct.target?]
  refine ⟨⟨target, by simp [innermost?, hcontrol, hbegin]⟩, ?_, ?_, ?_, rfl, rfl, rfl, rfl, rfl, rfl, rfl⟩
  · simp [fixes, itemCode, keywordCode, branching, hback, CodeBuffer.append_append, CodeBuffer.Aims.nil]
  · simp [stateAfter]
  · simp [controlAfter, opened, Item.role, Keyword.role, hcontrol]

theorem compiled_while (h : compileWhile token.pos s = .ok () s') :
    Compiled s (.keyword .«while» token index) s' := by
  rw [compileWhile, bind_eq_ok] at h
  obtain ⟨⟨target, state⟩, t, hpop, h⟩ := h
  obtain ⟨frame, rest, hcontrol, hbegin, rfl, rfl⟩ := popBegin_ok hpop
  simp only [testFlag, emitting_bind_apply, placeholder_bind_apply] at h
  cases h
  have hback : s.backTarget = target := by simp [backTarget, innermost?, hcontrol, hbegin, Construct.target?]
  refine ⟨⟨target, by simp [innermost?, hcontrol, hbegin]⟩, ?_, ?_, ?_, rfl, rfl, rfl, rfl, rfl, rfl, rfl⟩
  · simp [fixes, itemCode, keywordCode, testing, CodeBuffer.append_append, CodeBuffer.Aims.nil]
  · simp [stateAfter]
  · simp [controlAfter, opened, Item.role, Keyword.role, behind, itemCode, keywordCode, testing, hcontrol,
      hback, mergeState, Emitter.branchSite_eq _ _ 0, Nat.add_assoc]

theorem compiled_repeat (h : compileRepeat token.pos s = .ok () s') :
    Compiled s (.keyword .«repeat» token index) s' := by
  rw [compileRepeat, bind_eq_ok] at h
  obtain ⟨⟨⟨target, site⟩, frame⟩, t, hpop, h⟩ := h
  obtain ⟨rest, hcontrol, hselect, rfl⟩ := popFor_ok hpop
  have hwhile : frame.construct = .«while» target site := by
    split at hselect <;> cases hselect
    assumption
  simp only [emitting_bind_apply, bind_eq_ok] at h
  obtain ⟨_, t, hmerge, h⟩ := h
  obtain rfl := checkMerge_ok hmerge
  obtain ⟨_, t, hbranch, h⟩ := h
  obtain rfl := branchTo_ok hbranch
  obtain ⟨code, hcode, rfl⟩ := patchHere_ok h
  have hback : s.backTarget = target := by simp [backTarget, innermost?, hcontrol, hwhile, Construct.target?]
  refine ⟨⟨target, site, by simp [innermost?, hcontrol, hwhile]⟩, ?_, ?_, ?_, rfl, rfl, rfl, rfl, rfl, rfl,
    rfl⟩
  · have haims := CodeBuffer.Aims.of_patchRel32 hcode
    simpa [fixes, innermost?, hcontrol, hwhile, Construct.site?, behind, itemCode, keywordCode, branching,
      hback, CodeBuffer.append_append, Nat.add_assoc] using haims
  · simp [stateAfter]
  · simp [controlAfter, opened, Item.role, Keyword.role, hcontrol]

/-! ### Counted loops -/

theorem compiled_do (h : compileDo token.pos s = .ok () s') :
    Compiled s.begun (.keyword .«do» token index) s' := by
  simp only [compileDo, beginCode_bind_apply, emitting_bind_apply, here_bind_apply, get_bind_apply] at h
  cases h
  refine ⟨trivial, ?_, rfl, ?_, rfl, rfl, rfl, rfl, rfl, rfl, rfl⟩
  · simp [fixes, itemCode, keywordCode, CodeBuffer.append_append, CodeBuffer.Aims.nil,
      -Emitter.emitBlock_cons]
  · simp [controlAfter, opened, Item.role, Keyword.role, behind, itemCode, keywordCode, Nat.add_assoc]

theorem popDo_ok {word : String} {pos : Position} {body : Nat} {state : CacheState}
    (h : popDo word pos s = .ok (body, state) s') :
    ∃ frame rest, s.control = frame :: rest ∧ frame.construct = .«do» body ∧
      s' = { s with control := rest } := by
  rw [popDo, bind_eq_ok] at h
  obtain ⟨⟨body', frame⟩, t, hpop, h⟩ := h
  obtain ⟨rest, hcontrol, hselect, rfl⟩ := popFor_ok hpop
  cases h
  refine ⟨frame, rest, hcontrol, ?_, rfl⟩
  split at hselect <;> cases hselect
  assumption

theorem compiled_loop (h : compileLoop token.pos s = .ok () s') :
    Compiled s (.keyword .loop token index) s' := by
  rw [compileLoop, bind_eq_ok] at h
  obtain ⟨⟨body, state⟩, t, hpop, h⟩ := h
  obtain ⟨frame, rest, hcontrol, hdo, rfl⟩ := popDo_ok hpop
  simp only [emitting_bind_apply, emitBlock_bind_apply, bind_eq_ok] at h
  obtain ⟨_, t, hmerge, _, t, hbranch, h⟩ := h
  obtain rfl := checkMerge_ok hmerge
  obtain rfl := branchTo_ok hbranch
  obtain rfl := emitBlock_ok h
  have hback : s.backTarget = body := by simp [backTarget, innermost?, hcontrol, hdo, Construct.target?]
  refine ⟨⟨body, by simp [innermost?, hcontrol, hdo]⟩, ?_, ?_, ?_, rfl, rfl, rfl, rfl, rfl, rfl, rfl⟩
  · simp [fixes, itemCode, keywordCode, branching, hback, CodeBuffer.append_append, CodeBuffer.Aims.nil,
      Nat.add_assoc]
  · simp [stateAfter]
  · simp [controlAfter, opened, Item.role, Keyword.role, hcontrol]

theorem compiled_plusLoop (h : compilePlusLoop token.pos s = .ok () s') :
    Compiled s (.keyword .plusLoop token index) s' := by
  rw [compilePlusLoop, bind_eq_ok] at h
  obtain ⟨⟨body, state⟩, t, hpop, h⟩ := h
  obtain ⟨frame, rest, hcontrol, hdo, rfl⟩ := popDo_ok hpop
  simp only [emitting_bind_apply, emitBlock_bind_apply, placeholder_bind_apply, bind_eq_ok] at h
  obtain ⟨_, t, hmerge, _, t, hbranch, _, t, hpatch, h⟩ := h
  obtain rfl := checkMerge_ok hmerge
  obtain rfl := branchTo_ok hbranch
  obtain ⟨code, hcode, rfl⟩ := patchHere_ok hpatch
  obtain rfl := emitBlock_ok h
  have hback : s.backTarget = body := by simp [backTarget, innermost?, hcontrol, hdo, Construct.target?]
  refine ⟨⟨body, by simp [innermost?, hcontrol, hdo]⟩, ?_, ?_, ?_, rfl, rfl, rfl, rfl, rfl, rfl, rfl⟩
  · -- The jump out of the loop is patched with the rest of the block behind it.
    obtain rfl := Emitter.code_of_patch_behind rfl hcode
    simp [fixes, itemCode, keywordCode, plusLoopEnd, hback, CodeBuffer.append_append, CodeBuffer.Aims.nil,
      Nat.add_assoc]
  · simp [stateAfter]
  · simp [controlAfter, opened, Item.role, Keyword.role, hcontrol]

theorem compiled_loopIndex (h : compileLoopIndex "i" 0 token.pos s = .ok () s') :
    Compiled s (.keyword .loopIndex token index) s' := by
  simp only [compileLoopIndex, get_bind_apply] at h
  split at h
  · cases h
  · next hloops =>
    cases h
    refine ⟨Nat.pos_of_ne_zero (by simpa using hloops), ?_, rfl, rfl, rfl, rfl, rfl, rfl, rfl, rfl, rfl⟩
    simp [fixes, itemCode, keywordCode, CacheState.settling, CodeBuffer.Aims.nil]

theorem compiled_outerLoopIndex (h : compileLoopIndex "j" 1 token.pos s = .ok () s') :
    Compiled s (.keyword .outerLoopIndex token index) s' := by
  simp only [compileLoopIndex, get_bind_apply] at h
  split at h
  · cases h
  · next hloops =>
    cases h
    refine ⟨Nat.lt_of_succ_le (Nat.le_of_not_lt hloops), ?_, rfl, rfl, rfl, rfl, rfl, rfl, rfl, rfl, rfl⟩
    simp [fixes, itemCode, keywordCode, CacheState.settling, CodeBuffer.Aims.nil]

theorem compiled_unloop (h : compileUnloop token.pos s = .ok () s') :
    Compiled s (.keyword .unloop token index) s' := by
  simp only [compileUnloop, get_bind_apply] at h
  split at h
  · cases h
  · next hloops =>
    cases h
    refine ⟨Nat.lt_of_succ_le (Nat.le_of_not_lt hloops), ?_, rfl, rfl, rfl, rfl, rfl, rfl, rfl, rfl, rfl⟩
    simp [fixes, itemCode, keywordCode, CodeBuffer.Aims.nil]

/-! ### Definitions -/

theorem compiled_exit (h : compileExit token s = .ok () s') :
    Compiled s (.keyword .exit token index) s' := by
  simp only [compileExit, get_bind_apply] at h
  split at h
  · cases h
  · next hcurrent =>
    simp only [emitting_bind_apply, emitBlock_bind_apply, modify_bind_apply] at h
    obtain rfl := emitBlock_ok h
    refine ⟨by simpa [Admits, AdmitsKeyword, Option.isSome_iff_ne_none] using hcurrent, ?_, ?_, rfl, rfl, rfl,
      rfl, rfl, rfl, rfl, rfl⟩
    · simp [fixes, itemCode, keywordCode, CodeBuffer.append_append, CodeBuffer.Aims.nil]
    · simp [stateAfter]

theorem compiled_recurse (h : compileRecurse token s = .ok () s') :
    Compiled s (.keyword .recurse token index) s' := by
  rw [compileRecurse, get_bind_apply] at h
  cases hcurrent : s.current with
  | none =>
    rw [hcurrent] at h
    cases h
  | some definition =>
    rw [hcurrent] at h
    simp only [emitting_bind_apply, bind_eq_ok] at h
    obtain ⟨_, t, hbranch, h⟩ := h
    obtain rfl := branchTo_ok hbranch
    cases h
    refine ⟨by simp [Admits, AdmitsKeyword, hcurrent], ?_, ?_, rfl, rfl, rfl, rfl, rfl, rfl, rfl, rfl⟩
    · simp [fixes, itemCode, keywordCode, branching, hcurrent, CodeBuffer.append_append, CodeBuffer.Aims.nil]
    · simp [stateAfter]

theorem compiled_variable {name : Token} (h : defineVariable name token.pos s = .ok () s') :
    Compiled s (.«variable» token name index) s' := by
  rw [defineVariable, get_bind_apply] at h
  split at h
  all_goals
    cases h
    refine ⟨trivial, ?_, rfl, rfl, rfl, rfl, rfl, rfl, rfl, rfl, rfl⟩
    simp [fixes, itemCode, CodeBuffer.Aims.nil]

theorem compiled_semicolon (h : endDefinition token.pos s = .ok () s') :
    Compiled s (.keyword .semicolon token index) s' := by
  rw [endDefinition, get_bind_apply] at h
  cases hcurrent : s.current with
  | none =>
    rw [hcurrent] at h
    cases h
  | some definition =>
    rw [hcurrent] at h
    simp only [bind_eq_ok] at h
    obtain ⟨_, t, hrequire, h⟩ := h
    obtain ⟨hclosed, rfl⟩ := require_ok hrequire
    have hcontrol := ControlStack.ensureClosed_eq_ok_iff.mp hclosed
    have hadmits : t.Admits (.keyword .semicolon token index) := ⟨by simp [hcurrent], hcontrol⟩
    have hcontrol' : t.control = t.controlAfter (.keyword .semicolon token index) := by
      simp [controlAfter, opened, Item.role, Keyword.role, hcontrol]
    -- A note about cells left on the return stack changes the log only.
    by_cases hcells : 0 < t.returnCells
    all_goals
      simp only [hcells, if_true, if_false, note_bind_apply, modify_bind_apply, emitting_bind_apply] at h
      cases hskip : definition.skipSite with
      | none =>
        simp only [hskip, modify_bind_apply, count_bind_apply, here_bind_apply] at h
        cases h
        refine ⟨hadmits, ?_, ?_, hcontrol', rfl, ?_, rfl, rfl, rfl, rfl, rfl⟩
        · simp [fixes, itemCode, keywordCode, hcurrent, hskip, CodeBuffer.append_append, CodeBuffer.Aims.nil]
        · simp [stateAfter]
        · simp [dictionaryAfter, hcurrent]
      | some site =>
        simp only [hskip, here_bind_apply, bind_eq_ok (m := patch _ _)] at h
        obtain ⟨_, t', hpatch, h⟩ := h
        obtain ⟨code, hcode, rfl⟩ := patch_ok hpatch
        cases h
        refine ⟨hadmits, ?_, ?_, hcontrol', rfl, ?_, rfl, rfl, rfl, rfl, rfl⟩
        · have haims := CodeBuffer.Aims.of_patchRel32 hcode
          simpa [fixes, itemCode, keywordCode, behind, hcurrent, hskip, CodeBuffer.append_append,
            Nat.add_assoc] using haims
        · simp [stateAfter]
        · simp [dictionaryAfter, hcurrent]

/-- An older meaning of a name is told in the log only. -/
theorem noteOlderMeaning_ok {name : Token} {u : Unit} (h : noteOlderMeaning name s = .ok u s') :
    ∃ log, s' = { s with log := log } := by
  rw [noteOlderMeaning, get_bind_apply] at h
  cases hfind : s.dictionary.find? name.text with
  | some previous =>
    rw [hfind] at h
    cases h
    exact ⟨_, rfl⟩
  | none =>
    rw [hfind] at h
    by_cases hshadow : (Primitive.lookup? name.text).isSome
    · simp only [hshadow, if_true] at h
      cases h
      exact ⟨_, rfl⟩
    · simp only [hshadow] at h
      cases h
      exact ⟨_, rfl⟩

theorem resolveCalls_ok {name : String} {target : Nat} {sites : List Nat} {u : Unit}
    (h : resolveCalls name target sites s = .ok u s') :
    ∃ code stats log, CodeBuffer.Aims sites target s.code code ∧
      s' = { s with code := code, stats := stats, log := log } := by
  induction sites generalizing s with
  | nil =>
    cases h
    exact ⟨_, _, _, .nil target _, rfl⟩
  | cons site sites ih =>
    simp only [resolveCalls, bind_eq_ok (m := patch _ _), note_bind_apply] at h
    obtain ⟨_, t, hpatch, h⟩ := h
    obtain ⟨code, hcode, rfl⟩ := patch_ok hpatch
    obtain ⟨code', stats, log, haims, rfl⟩ := ih h
    exact ⟨code', stats, log, (CodeBuffer.Aims.of_patchRel32 hcode).cons haims, rfl⟩

theorem skipDefinition_bind_apply {β : Type} (f : Option Nat → Compile β) :
    (skipDefinition >>= f) s =
      if s.entry.isSome then
        f (some (s.spill.branchSite .jump)) { s with toEmitter := s.spill.placeholder .jump }
      else f none s := by
  show EStateM.bind skipDefinition f s = _
  unfold EStateM.bind skipDefinition
  rw [get_bind_apply]
  by_cases hentry : s.entry.isSome
  · rw [if_pos hentry, if_pos hentry]
    rfl
  · rw [if_neg hentry, if_neg hentry]
    rfl

theorem compiled_define {name : Token} (h : beginDefinition name token.pos s = .ok () s') :
    Compiled s (.define token name index) s' := by
  rw [beginDefinition, get_bind_apply] at h
  by_cases hopen : s.current.isSome ∨ s.control ≠ []
  · rw [if_pos hopen] at h
    cases h
  · rw [if_neg hopen] at h
    have hadmits : s.Admits (.define token name index) := by
      simpa [Admits, not_or, Option.isSome_iff_ne_none] using hopen
    simp only [skipDefinition_bind_apply] at h
    cases hentry : s.entry.isSome
    all_goals
      simp only [hentry, ↓reduceIte, Bool.false_eq_true, emitting_bind_apply,
        bind_eq_ok (m := noteOlderMeaning _)] at h
      obtain ⟨_, t, holder, h⟩ := h
      obtain ⟨log, rfl⟩ := noteOlderMeaning_ok holder
      simp only [here_bind_apply, get_bind_apply, modify_bind_apply, bind_eq_ok (m := resolveCalls _ _ _)] at h
      obtain ⟨_, t, hcalls, h⟩ := h
      obtain ⟨code, stats, log', haims, rfl⟩ := resolveCalls_ok hcalls
      cases h
      refine ⟨hadmits, ?_, rfl, ?_, ?_, ?_, rfl, rfl, rfl, rfl, rfl⟩
      · simpa [fixes, behind, itemCode, hentry, CodeBuffer.append_append, Emitter.placeholder,
          Nat.add_assoc] using haims
      · simp [controlAfter, opened, Item.role]
      · simp [currentAfter, behind, itemCode, hentry, Emitter.placeholder, Emitter.branchSite_eq _ _ 0,
          Nat.add_assoc]
      · simp [dictionaryAfter, behind, itemCode, hentry, Emitter.placeholder, Nat.add_assoc]

end Keywords

/-! ### Words and numbers -/

section Words

variable {s s' : Compiler} {token : Token} {index : Nat}

@[simp] theorem resolve_begun (s : Compiler) : s.begun.resolve token index = s.resolve token index := by
  unfold begun
  split <;> rfl

theorem compileWord_eq (s : Compiler) :
    compileWord token index s =
      match s.resolve token index with
      | some (.primitive p) => compilePrimitive p s
      | some (.defined meaning) => compileMeaning meaning s
      | some .later => compileForwardCall token s
      | some .nothing => skipWord token s
      | none => .error (.unresolvedWord token.text token.pos) s := by
  unfold compileWord resolve
  cases Primitive.lookup? token.text with
  | some p => rfl
  | none =>
    dsimp only
    rw [get_bind_apply]
    cases s.dictionary.find? token.text with
    | some entry => rfl
    | none =>
      dsimp only
      split
      · rfl
      · split <;> rfl

theorem compiled_primitive {p : Primitive} (hr : s.resolve token index = some (.primitive p))
    (h : compilePrimitive p s = .ok () s') : Compiled s.begun (.word token index) s' := by
  rw [← resolve_begun] at hr
  rw [compilePrimitive, beginCode_bind_apply, get_bind_apply, bind_eq_ok] at h
  obtain ⟨_, t, hemit, h⟩ := h
  cases h
  unfold emitter at hemit
  split at hemit
  · next e he =>
    cases hemit
    obtain ⟨hcode, hstate⟩ := Emitter.follow_ok he
    refine ⟨by simp [Admits, hr], ?_, ?_, rfl, rfl, rfl, ?_, ?_, rfl, rfl, rfl⟩
    · simpa [fixes, itemCode, hr, referenceCode, hcode] using CodeBuffer.Aims.nil _ _
    · simpa [stateAfter, hr] using hstate
    · simp [forwardAfter, hr]
    · simp [countsAfter, hr]
  · cases hemit

theorem compiled_meaning {meaning : Meaning} (hr : s.resolve token index = some (.defined meaning))
    (h : compileMeaning meaning s = .ok () s') : Compiled s.begun (.word token index) s' := by
  rw [← resolve_begun] at hr
  cases meaning with
  | code offset =>
    simp only [compileMeaning, beginCode_bind_apply, emitting_bind_apply, bind_eq_ok (m := emitter _)] at h
    obtain ⟨_, t, hbranch, h⟩ := h
    obtain rfl := branchTo_ok hbranch
    cases h
    refine ⟨by simp [Admits, hr], ?_, ?_, rfl, rfl, rfl, ?_, ?_, rfl, rfl, rfl⟩
    · simp [fixes, itemCode, hr, referenceCode, branching, CodeBuffer.append_append, CodeBuffer.Aims.nil]
    · simp [stateAfter, hr]
    · simp [forwardAfter, hr]
    · simp [countsAfter, hr]
  | cell address =>
    simp only [compileMeaning, beginCode_bind_apply] at h
    cases h
    refine ⟨by simp [Admits, hr], ?_, ?_, rfl, rfl, rfl, ?_, ?_, rfl, rfl, rfl⟩
    · simp [fixes, itemCode, hr, referenceCode, Emitter.literal, CodeBuffer.append_append, CodeBuffer.Aims.nil]
    · simp [stateAfter, hr, Emitter.literal]
    · simp [forwardAfter, hr]
    · simp [countsAfter, hr]

theorem compiled_forwardCall (hr : s.resolve token index = some .later)
    (h : compileForwardCall token s = .ok () s') : Compiled s.begun (.word token index) s' := by
  rw [← resolve_begun] at hr
  simp only [compileForwardCall, beginCode_bind_apply, emitting_bind_apply, placeholder_bind_apply,
    modify_bind_apply] at h
  cases h
  refine ⟨by simp [Admits, hr], ?_, ?_, rfl, rfl, rfl, ?_, ?_, rfl, rfl, rfl⟩
  · simp [fixes, itemCode, hr, referenceCode, CodeBuffer.append_append, CodeBuffer.Aims.nil]
  · simp [stateAfter, hr]
  · simp [forwardAfter, hr, behind, itemCode, referenceCode, Emitter.branchSite_eq _ _ 0, Nat.add_assoc]
  · simp [countsAfter, hr]

theorem compiled_skip (hr : s.resolve token index = some .nothing)
    (h : skipWord token s = .ok () s') : Compiled s (.word token index) s' := by
  cases h
  refine ⟨by simp [Admits, hr], ?_, ?_, rfl, rfl, rfl, ?_, ?_, rfl, rfl, rfl⟩
  · simp [fixes, itemCode, hr, referenceCode, CodeBuffer.Aims.nil]
  · simp [stateAfter, hr]
  · simp [forwardAfter, hr]
  · simp [countsAfter, hr]

theorem compiled_number {literal : Literal} (h : compileNumber token literal s = .ok () s') :
    Compiled s.begun (.number literal token index) s' := by
  cases literal with
  | outOfRange => cases h
  | cell value =>
    rw [compileNumber, beginCode_bind_apply] at h
    cases h
    refine ⟨⟨value, rfl⟩, ?_, rfl, rfl, rfl, rfl, rfl, rfl, rfl, rfl, rfl⟩
    simp [fixes, itemCode, Emitter.literal, CodeBuffer.append_append, CodeBuffer.Aims.nil]

end Words

/-! ### Items -/

/-- **Compiling an item** does what `Compiled` says. -/
theorem compileItem_compiled {s s' : Compiler} {item : Item} (h : compileItem item s = .ok () s') :
    Compiled (s.ready item) item s' := by
  cases item with
  | define colon name index => exact compiled_define (s := s.met colon) h
  | «variable» word name index => exact compiled_variable (s := s.met word) h
  | number literal token index => exact compiled_number (s := s.met token) h
  | word token index =>
    change compileWord token index (s.met token) = .ok () s' at h
    rw [compileWord_eq] at h
    have hmet : s.resolve token index = (s.met token).resolve token index := rfl
    simp only [ready, startsCode, hmet, Item.token]
    cases hr : (s.met token).resolve token index with
    | none =>
      rw [hr] at h
      cases h
    | some reference =>
      rw [hr] at h
      cases reference with
      | primitive p => exact compiled_primitive hr h
      | defined meaning => exact compiled_meaning hr h
      | later => exact compiled_forwardCall hr h
      | nothing => exact compiled_skip hr h
  | keyword k token index =>
    change compileKeyword token k (s.met token) = .ok () s' at h
    cases k with
    | colon => cases h
    | «variable» => cases h
    | semicolon => exact compiled_semicolon (s := s.met token) h
    | «if» => exact compiled_if (s := s.met token) h
    | «else» => exact compiled_else (s := s.met token) h
    | «then» => exact compiled_then (s := s.met token) h
    | «begin» => exact compiled_begin (s := s.met token) h
    | «until» => exact compiled_until (s := s.met token) h
    | again => exact compiled_again (s := s.met token) h
    | «while» => exact compiled_while (s := s.met token) h
    | «repeat» => exact compiled_repeat (s := s.met token) h
    | «do» => exact compiled_do (s := s.met token) h
    | loop => exact compiled_loop (s := s.met token) h
    | plusLoop => exact compiled_plusLoop (s := s.met token) h
    | loopIndex => exact compiled_loopIndex (s := s.met token) h
    | outerLoopIndex => exact compiled_outerLoopIndex (s := s.met token) h
    | unloop => exact compiled_unloop (s := s.met token) h
    | exit => exact compiled_exit (s := s.met token) h
    | recurse => exact compiled_recurse (s := s.met token) h

end Compiler

end ForthElf
